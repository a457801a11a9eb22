import NpmFollower.RelationalDbBuilder.DependencyCache

/-! # The cached counters against the direct statements

Every call on the counters can also be made without the cache, by one statement
each. The direct run uses up a value of the identity column at every call and
the cached run only where it misses, so the two agree up to a renumbering of the
rows that keeps their order.
-/

namespace NpmFollower.RelationalDbBuilder

open Std PostgresDb RelationalDbAccessor

variable {C : LruCaches}

inductive CountsOp where
  | insertOrIncDependency (dep : NewDependency)
  | flushCaches

/-- What an operation shows: the id that it returns, or the rows right after it. -/
inductive Shown where
  | id (id : ℤ)
  | rows (rows : List Dependency)

def renumber (φ : ℤ → ℤ) (d : Dependency) : Dependency := { d with id := φ d.id }

def Shown.renumber (φ : ℤ → ℤ) : Shown → Shown
  | id i => id (φ i)
  | rows l => rows (l.map (RelationalDbBuilder.renumber φ))

namespace CountsOp

def cached : CountsOp → Run C Shown
  | insertOrIncDependency dep => do
    let id ← RelationalDbAccessor.insertOrIncDependency dep
    return .id id
  | flushCaches => do
    RelationalDbAccessor.flushCaches
    return .rows (← get).conn.dependencies.rows

def direct : CountsOp → Query Shown
  | insertOrIncDependency dep => do
    let (id, _) ← Dependencies.insertDependencyIncCounts dep
    return .id id
  | flushCaches => return .rows (← get).dependencies.rows

end CountsOp

def depIds (db : Db) : Set ℤ := {i | ∃ d ∈ db.dependencies.rows, d.id = i}

/-- The ids in what is shown. -/
def Shown.ids : Shown → Set ℤ
  | id i => {i}
  | rows l => {i | ∃ d ∈ l, d.id = i}

theorem Shown.renumber_congr {φ ψ : ℤ → ℤ} {s : Shown} (h : Set.EqOn φ ψ s.ids) :
    s.renumber φ = s.renumber ψ := by
  cases s with
  | id i => exact congrArg Shown.id (h rfl)
  | rows l =>
    refine congrArg Shown.rows (List.map_congr_left fun d hd => ?_)
    rw [RelationalDbBuilder.renumber, RelationalDbBuilder.renumber, h ⟨d, hd, rfl⟩]

/-- The cached world is the direct database with its rows renumbered, and sees its counters. -/
structure Renumbers (φ : ℤ → ℤ) (db : Db) (w : World C) : Prop where
  packages : db.packages = w.conn.packages
  direct : (uncached C db).DepsInv
  inv : w.DepsInv
  mono : StrictMonoOn φ (depIds db)
  rows : w.conn.dependencies.rows.map Dependency.fixed =
    db.dependencies.rows.map fun d => (renumber φ d).fixed
  view : (uncached C db).depState.view = w.depState.view
  nextId : w.conn.dependencies.nextId ≤ db.dependencies.nextId

namespace Renumbers

section Insert

variable {φ : ℤ → ℤ} {db : Db} {w w' : World C} (h : Renumbers φ db w) {dep : NewDependency}
  {id id' : ℤ} {counts : FreqCounts} {t : Table Dependency}

include h

theorem admits_iff : (uncached C db).Admits dep ↔ w.Admits dep := by
  have hkey : Packages.foreignKey (uncached C db).conn dep.dstPackageIdIfExists =
      Packages.foreignKey w.conn dep.dstPackageIdIfExists := by
    rw [Packages.foreignKey, Packages.foreignKey, ← h.packages]
    rfl
  rw [World.Admits, World.Admits, h.view, hkey]

theorem nextCounts_eq : (uncached C db).nextCounts dep = w.nextCounts dep := by
  rw [World.nextCounts, h.view, World.nextCounts]

theorem stored_iff (hash : String) :
    ((uncached C db).depState.store hash).isSome ↔ (w.depState.store hash).isSome := by
  rw [← h.direct.coherent.view_isSome, h.view, h.inv.coherent.view_isSome]

theorem exists_image {d : Dependency} (hd : d ∈ db.dependencies.rows) :
    ∃ d' ∈ w.conn.dependencies.rows, digest d' = digest d ∧ d'.id = φ d.id := by
  have hmem : (renumber φ d).fixed ∈ w.conn.dependencies.rows.map Dependency.fixed := by
    rw [h.rows]
    exact List.mem_map_of_mem hd
  obtain ⟨d', hd', heq⟩ := List.mem_map.mp hmem
  have hdigest := congrArg digest heq
  have hid := congrArg Dependency.id heq
  exact ⟨d', hd', hdigest, hid⟩

variable (hins : Inserted (uncached C db) dep id counts t) (hstep : w.DepStep dep id' w')

include hins hstep

/-- What a call leaves to prove: that the renumbering still fits the ids and the rows. -/
theorem of_insert (hC : C.dependencyStates.Lawful) {ψ : ℤ → ℤ}
    (hmono : StrictMonoOn ψ (depIds { db with dependencies := t }))
    (hrows : w'.conn.dependencies.rows.map Dependency.fixed =
      t.rows.map fun d => (renumber ψ d).fixed) :
    Renumbers ψ { db with dependencies := t } w' where
  packages := by
    obtain ⟨cache, needFlush, deps, hframe⟩ := hstep.frame
    rw [hframe]
    exact h.packages
  direct := uncached_depsInv hC hins.identity hins.digests
  inv := hstep.inv
  mono := hmono
  rows := hrows
  view := by
    rw [uncached_view hC, hstep.view, ← h.view, ← h.nextCounts_eq, ← hins.next, uncached_view hC]
    funext hash
    rw [Function.update_apply]
    exact hins.store hash
  nextId := by
    change _ ≤ t.nextId
    rw [hins.nextId]
    exact hstep.nextId.2.trans (add_le_add_left h.nextId 1)

/-- The row of a call that is there already has the renumbered id in the cached world. -/
theorem id_eq_of_stored (hstored : ((uncached C db).depState.store dep.md5digestWithVersion).isSome) :
    φ id = id' := by
  have htrows := hins.rows
  rw [if_pos hstored, List.append_nil] at htrows
  obtain ⟨d, hd, hdigest, hid⟩ := hins.found
  obtain ⟨d₀, hd₀, hdigest₀, hid₀⟩ := exists_row_of_fixed (htrows.symm.trans (List.append_nil _).symm) hd
  obtain ⟨d₁, hd₁, hdigest₁, hid₁⟩ := h.exists_image hd₀
  obtain ⟨d₂, hd₂, hdigest₂, hid₂⟩ := exists_row_of_fixed hstep.rows hd₁
  obtain ⟨d₃, hd₃, hdigest₃, hid₃⟩ := hstep.found
  have heq : d₂ = d₃ := List.inj_on_of_nodup_map hstep.inv.digests hd₂ hd₃
    (by rw [hdigest₂, hdigest₁, hdigest₀, hdigest, hdigest₃])
  rw [← hid, ← hid₀, ← hid₁, ← hid₂, heq, hid₃]

theorem insert_stored (hC : C.dependencyStates.Lawful)
    (hstored : ((uncached C db).depState.store dep.md5digestWithVersion).isSome) :
    Renumbers φ { db with dependencies := t } w' := by
  have htrows := hins.rows
  have hwrows := hstep.rows
  rw [if_pos hstored, List.append_nil] at htrows
  rw [if_pos ((h.stored_iff _).mp hstored), List.append_nil] at hwrows
  refine h.of_insert hins hstep hC (h.mono.mono ?_) ?_
  · rintro i ⟨d, hd, rfl⟩
    obtain ⟨d₀, hd₀, -, hid₀⟩ := exists_row_of_fixed
      (htrows.symm.trans (List.append_nil _).symm) hd
    exact ⟨d₀, hd₀, hid₀⟩
  · have hmap := congrArg (List.map (renumber φ)) htrows
    rw [List.map_map, List.map_map] at hmap
    rw [hwrows, h.rows]
    exact hmap.symm

/-- A new row has the next id in both, which comes after all others. -/
theorem insert_new (hC : C.dependencyStates.Lawful)
    (hstored : ¬((uncached C db).depState.store dep.md5digestWithVersion).isSome) :
    Set.EqOn φ (Function.update φ id id') (depIds db) ∧
      Renumbers (Function.update φ id id') { db with dependencies := t } w' := by
  have htrows := hins.rows
  have hwrows := hstep.rows
  rw [if_neg hstored] at htrows
  rw [if_neg fun hw => hstored ((h.stored_iff _).mpr hw)] at hwrows
  have hlt := lt_of_identity_append hins.identity htrows
  have hlt' := lt_of_identity_append hstep.inv.identity hwrows
  have hold : Set.EqOn φ (Function.update φ id id') (depIds db) := by
    rintro i ⟨d, hd, rfl⟩
    exact (Function.update_of_ne (hlt d hd).ne _ _).symm
  refine ⟨hold, h.of_insert hins hstep hC ?_ ?_⟩
  · have hids : ∀ i ∈ depIds { db with dependencies := t }, i ∈ depIds db ∨ i = id := by
      rintro i ⟨d, hd, rfl⟩
      have hmem := List.mem_map_of_mem (f := Dependency.fixed) hd
      rw [htrows] at hmem
      rcases List.mem_append.mp hmem with hmem | hmem
      · obtain ⟨d₀, hd₀, heq⟩ := List.mem_map.mp hmem
        have hid := congrArg Dependency.id heq
        exact .inl ⟨d₀, hd₀, hid⟩
      · exact .inr (congrArg Dependency.id (List.mem_singleton.mp hmem))
    intro i hi j hj hij
    rcases hids i hi with hi | rfl <;> rcases hids j hj with hj | rfl
    · rw [← hold hi, ← hold hj]
      exact h.mono hi hj hij
    · rw [← hold hi, Function.update_self]
      obtain ⟨d, hd, rfl⟩ := hi
      obtain ⟨d', hd', -, hid⟩ := h.exists_image hd
      exact hid ▸ hlt' d' hd'
    · obtain ⟨d, hd, rfl⟩ := hj
      exact absurd hij (hlt d hd).not_gt
    · exact absurd hij (lt_irrefl _)
  · have hmap := congrArg (List.map (renumber (Function.update φ id id'))) htrows
    rw [List.map_append, List.map_map, List.map_map] at hmap
    rw [hwrows, h.rows]
    refine Eq.trans (congrArg₂ _ (List.map_congr_left fun d hd => ?_) ?_) hmap.symm
    · rw [renumber, hold ⟨d, hd, rfl⟩]
      rfl
    · simp [renumber, Dependency.fixed]

end Insert

end Renumbers

theorem eq_of_fixed {a b : Dependency} (hfixed : a.fixed = b.fixed) (hcounts : a.counts = b.counts) :
    a = b :=
  calc a = { a.fixed with counts := a.counts } := rfl
    _ = { b.fixed with counts := b.counts } := by rw [hfixed, hcounts]
    _ = b := rfl

/-- Rows that are the renumbered ones apart from the counters, with the same counters by digest. -/
theorem rows_eq_of_fixed {φ : ℤ → ℤ} {l l' : List Dependency}
    (hfixed : l'.map Dependency.fixed = l.map fun d => (renumber φ d).fixed)
    (hl : (l.map digest).Nodup) (hl' : (l'.map digest).Nodup)
    (hcounts : ∀ hash, (Rows.find digest l hash).map (·.counts) =
      (Rows.find digest l' hash).map (·.counts)) : l' = l.map (renumber φ) := by
  have hlength : l'.length = l.length := by simpa using congrArg List.length hfixed
  refine List.ext_getElem (by simpa using hlength) fun i hi hi' => ?_
  rw [List.getElem_map]
  have hat := List.getElem_of_eq hfixed (i := i) (by simpa using hi)
  rw [List.getElem_map, List.getElem_map] at hat
  have hdigest : digest l'[i] = digest l[i] := by
    have hdigest := congrArg digest hat
    exact hdigest
  have hfound := hcounts (digest l[i])
  rw [Rows.find_of_mem hl (List.getElem_mem _), ← hdigest,
    Rows.find_of_mem hl' (List.getElem_mem _)] at hfound
  exact eq_of_fixed hat (Option.some.inj hfound).symm

section Step

variable (hC : C.dependencyStates.Lawful) {φ : ℤ → ℤ} {db : Db} {w : World C}

theorem direct_insert_apply (dep : NewDependency) (db : Db) :
    (CountsOp.insertOrIncDependency dep).direct db =
      match Dependencies.insertDependencyIncCounts dep db with
      | .ok ((id, _), db') => .ok (.id id, db')
      | .error e => .error e := by
  rw [CountsOp.direct, Hoare.bind_apply]
  cases Dependencies.insertDependencyIncCounts dep db <;> rfl

theorem cached_insert_apply (dep : NewDependency) (w : World C) :
    (CountsOp.insertOrIncDependency dep).cached w = match insertOrIncDependency dep w with
      | .ok (id, w') => .ok (.id id, w')
      | .error e => .error e := by
  rw [CountsOp.cached, Hoare.bind_apply]
  cases insertOrIncDependency dep w <;> rfl

theorem cached_flush_apply {w' : World C} (h : flushCaches w = .ok ((), w')) :
    CountsOp.flushCaches.cached w = .ok (.rows w'.conn.dependencies.rows, w') := by
  rw [CountsOp.cached, Hoare.bind_apply, h]
  rfl

include hC

theorem cached_triple (op : CountsOp) : Hoare.Triple World.DepsInv (op.cached (C := C))
    (fun _ => World.DepsInv) (fun e => e.isOther) := by
  intro w hw
  cases op with
  | insertOrIncDependency dep =>
    have hspec := insertOrIncDependency_spec hC hw dep
    rw [cached_insert_apply]
    cases hrun : insertOrIncDependency dep w with
    | ok r =>
      rw [hrun] at hspec
      exact hspec.inv
    | error e =>
      rw [hrun] at hspec
      exact hspec.1
  | flushCaches =>
    obtain ⟨w', hrun, hflushed⟩ := flushCaches_spec hw
    rw [cached_flush_apply hrun]
    exact hflushed.inv

/-- One operation on both sides. Only a direct call can use up the identity column. -/
theorem Renumbers.step (h : Renumbers φ db w) (op : CountsOp) :
    match op.direct db, op.cached w with
    | .ok (s, db'), .ok (s', w') => ∃ ψ, Set.EqOn φ ψ (depIds db) ∧ Renumbers ψ db' w' ∧
        s' = s.renumber ψ ∧ s.ids ⊆ depIds db' ∧ depIds db ⊆ depIds db' ∧
        db'.dependencies.nextId ≤ db.dependencies.nextId + 1
    | .ok _, .error _ => False
    | .error _, .ok (_, w') => w'.DepsInv ∧ 2 ^ 63 ≤ db.dependencies.nextId
    | .error _, .error e => e.isOther := by
  cases op with
  | flushCaches =>
    obtain ⟨w', hrun, hflushed⟩ := flushCaches_spec h.inv
    rw [cached_flush_apply hrun]
    have hrows : w'.conn.dependencies.rows.map Dependency.fixed =
        db.dependencies.rows.map fun d => (renumber φ d).fixed := hflushed.fixed.trans h.rows
    have hrenumbers : Renumbers φ db w' := by
      refine ⟨?_, h.direct, hflushed.inv, h.mono, hrows, ?_, ?_⟩
      · obtain ⟨deps, hframe⟩ := hflushed.frame
        rw [hframe]
        exact h.packages
      · rw [hflushed.view]
        exact h.view
      · rw [hflushed.nextId]
        exact h.nextId
    have hcounts : (uncached C db).depState.store = w'.depState.store := by
      rw [hflushed.store, ← h.view, uncached_view hC]
    refine ⟨φ, Set.eqOn_refl _ _, hrenumbers, ?_, fun i hi => hi, subset_rfl,
      (lt_add_one _).le⟩
    exact congrArg Shown.rows (rows_eq_of_fixed hrows h.direct.digests hflushed.inv.digests
      (congrFun hcounts))
  | insertOrIncDependency dep =>
    have hspec := insertOrIncDependency_spec hC h.inv dep
    rw [direct_insert_apply, cached_insert_apply]
    cases hdirect : Dependencies.insertDependencyIncCounts dep db with
    | ok r =>
      obtain ⟨⟨id, counts⟩, db'⟩ := r
      obtain ⟨t, rfl, hins⟩ := inserted_of_ok h.direct (uncached_depEntry hC _) hdirect
      cases hcached : insertOrIncDependency dep w with
      | error e =>
        rw [hcached] at hspec
        exact hspec.2 ⟨h.nextId.trans_lt hins.accepts.1, h.admits_iff.mp hins.accepts.2⟩
      | ok r =>
        obtain ⟨id', w'⟩ := r
        rw [hcached] at hspec
        have hid : (Shown.id id).ids ⊆ depIds { db with dependencies := t } := by
          rintro i rfl
          obtain ⟨d, hd, -, hid⟩ := hins.found
          exact ⟨d, hd, hid⟩
        have hsub : depIds db ⊆ depIds { db with dependencies := t } := by
          rintro i ⟨d, hd, rfl⟩
          obtain ⟨d', hd', -, hid⟩ := exists_row_of_fixed hins.rows hd
          exact ⟨d', hd', hid⟩
        by_cases hstored : ((uncached C db).depState.store dep.md5digestWithVersion).isSome
        · refine ⟨φ, Set.eqOn_refl _ _, h.insert_stored hins hspec hC hstored, ?_, hid, hsub,
            hins.nextId.le⟩
          rw [Shown.renumber, h.id_eq_of_stored hins hspec hstored]
        · obtain ⟨hold, hnew⟩ := h.insert_new hins hspec hC hstored
          refine ⟨_, hold, hnew, ?_, hid, hsub, hins.nextId.le⟩
          rw [Shown.renumber, Function.update_self]
    | error e =>
      have haccepts := not_accepts_of_error (w := uncached C db) (uncached_depEntry hC _) hdirect
      cases hcached : insertOrIncDependency dep w with
      | error e =>
        rw [hcached] at hspec
        exact hspec.1
      | ok r =>
        rw [hcached] at hspec
        refine ⟨hspec.inv, ?_⟩
        by_contra hnext
        exact haccepts.2 ⟨lt_of_not_ge hnext, h.admits_iff.mpr hspec.admits⟩

end Step

section Run

variable (hC : C.dependencyStates.Lawful) {φ : ℤ → ℤ} {db : Db} {w : World C}

include hC

theorem cached_run_triple (ops : List CountsOp) :
    Hoare.Triple World.DepsInv (ops.mapM (CountsOp.cached (C := C))) (fun _ => World.DepsInv)
      (fun e => e.isOther) :=
  Hoare.Triple.mapM ops (fun _ _ => World.DepsInv) fun _ op _ _ _ => cached_triple hC op

theorem Renumbers.run (h : Renumbers φ db w) (ops : List CountsOp) :
    match ops.mapM CountsOp.direct db, ops.mapM CountsOp.cached w with
    | .ok (shown, db'), .ok (shown', w') => ∃ ψ, Set.EqOn φ ψ (depIds db) ∧
        Renumbers ψ db' w' ∧ shown' = shown.map (Shown.renumber ψ)
    | .ok _, .error _ => False
    | .error _, .ok (_, w') => w'.DepsInv ∧ 2 ^ 63 < db.dependencies.nextId + ops.length
    | .error _, .error e => e.isOther := by
  induction ops generalizing φ db w with
  | nil => exact ⟨φ, Set.eqOn_refl _ _, h, rfl⟩
  | cons op ops ih =>
    have hstep := h.step hC op
    rw [Hoare.mapM_cons_apply, Hoare.mapM_cons_apply]
    cases hdirect : op.direct db with
    | ok r =>
      rw [hdirect] at hstep
      cases hcached : op.cached w with
      | error e =>
        rw [hcached] at hstep
        exact hstep.elim
      | ok r' =>
        obtain ⟨s, db₁⟩ := r
        obtain ⟨s', w₁⟩ := r'
        rw [hcached] at hstep
        obtain ⟨ψ, hold, hnew, hs, hids, hsub, hnext⟩ := hstep
        have hrest := ih hnew
        dsimp only
        cases hdirects : ops.mapM CountsOp.direct db₁ with
        | ok r =>
          rw [hdirects] at hrest
          cases hcacheds : ops.mapM CountsOp.cached w₁ with
          | error e =>
            rw [hcacheds] at hrest
            exact hrest.elim
          | ok r' =>
            rw [hcacheds] at hrest
            obtain ⟨ψ', hold', hend, hshown⟩ := hrest
            refine ⟨ψ', hold.trans (hold'.mono hsub), hend, ?_⟩
            rw [hshown, hs, Shown.renumber_congr (hold'.mono hids), List.map_cons]
        | error e =>
          rw [hdirects] at hrest
          cases hcacheds : ops.mapM CountsOp.cached w₁ with
          | error e' =>
            rw [hcacheds] at hrest
            exact hrest
          | ok r' =>
            rw [hcacheds] at hrest
            refine ⟨hrest.1, hrest.2.trans_le ?_⟩
            rw [List.length_cons]
            push_cast
            omega
    | error e =>
      rw [hdirect] at hstep
      cases hcached : op.cached w with
      | error e' =>
        rw [hcached] at hstep
        exact hstep
      | ok r' =>
        obtain ⟨s', w₁⟩ := r'
        rw [hcached] at hstep
        have hrest := cached_run_triple hC ops w₁ hstep.1
        dsimp only
        cases hcacheds : ops.mapM CountsOp.cached w₁ with
        | error e' =>
          rw [hcacheds] at hrest
          exact hrest
        | ok r' =>
          rw [hcacheds] at hrest
          refine ⟨hrest, ?_⟩
          rw [List.length_cons]
          push_cast
          omega

end Run

section Transparent

/-- The cached run shows what the direct run shows. -/
def Transparent (C : LruCaches) (db : Db) (ops : List CountsOp) : Prop :=
  ∀ shown db', ops.mapM CountsOp.direct db = .ok (shown, db') →
    ∃ w', ops.mapM CountsOp.cached (uncached C db) = .ok (shown, w')

/-- Every hash that needs a flush is in the cache. -/
def FlushSetCached (w : World C) : Prop :=
  ∀ hash ∈ w.accessor.needFlushSet, (w.depEntry hash).isSome

theorem World.DepsInv.flushSetCached {w : World C} (h : w.DepsInv) : FlushSetCached w := by
  intro hash hmem
  have hcached := h.coherent.dirty_cached hash hmem
  rwa [World.depState, Option.isSome_map] at hcached

/-- The cached run shows what the direct run shows, with ids that stand in the same order. It may
only go on where the direct run has no ids left, and it never stops on a hash that needs a flush and
is not cached. -/
def TransparentUpToIds (C : LruCaches) (db : Db) (ops : List CountsOp) : Prop :=
  match ops.mapM CountsOp.direct db, ops.mapM CountsOp.cached (uncached C db) with
  | .ok (shown, db'), .ok (shown', w') => FlushSetCached w' ∧
      ∃ φ, StrictMonoOn φ (depIds db') ∧ shown' = shown.map (Shown.renumber φ)
  | .ok _, .error _ => False
  | .error _, .ok (_, w') => FlushSetCached w' ∧ 2 ^ 63 < db.dependencies.nextId + ops.length
  | .error _, .error e => e.isOther

theorem renumbers_refl (hC : C.dependencyStates.Lawful) {db : Db}
    (hid : db.dependencies.Identity Dependency.id)
    (hdigests : (db.dependencies.rows.map digest).Nodup) :
    Renumbers id db (uncached C db) where
  packages := rfl
  direct := uncached_depsInv hC hid hdigests
  inv := uncached_depsInv hC hid hdigests
  mono := strictMonoOn_id
  rows := rfl
  view := rfl
  nextId := le_rfl

theorem cached_transparentUpToIds (hC : C.dependencyStates.Lawful) {db : Db}
    (hid : db.dependencies.Identity Dependency.id)
    (hdigests : (db.dependencies.rows.map digest).Nodup) (ops : List CountsOp) :
    TransparentUpToIds C db ops := by
  have hrun := (renumbers_refl hC hid hdigests).run hC ops
  rw [TransparentUpToIds]
  cases hdirect : ops.mapM CountsOp.direct db with
  | ok r =>
    rw [hdirect] at hrun
    cases hcached : ops.mapM CountsOp.cached (uncached C db) with
    | ok r' =>
      rw [hcached] at hrun
      obtain ⟨φ, -, hend, hshown⟩ := hrun
      exact ⟨hend.inv.flushSetCached, φ, hend.mono, hshown⟩
    | error e =>
      rw [hcached] at hrun
      exact hrun
  | error e =>
    rw [hdirect] at hrun
    cases hcached : ops.mapM CountsOp.cached (uncached C db) with
    | ok r' =>
      rw [hcached] at hrun
      exact ⟨hrun.1.flushSetCached, hrun.2⟩
    | error e' =>
      rw [hcached] at hrun
      exact hrun

def sampleDependency (name : String) : NewDependency where
  dstPackageName := name
  dstPackageIdIfExists := none
  rawSpec := .null
  spec := .tag "latest"
  counts := .single .prod 1
  md5digest := name
  md5digestWithVersion := name

def sampleOps : List CountsOp :=
  [.insertOrIncDependency (sampleDependency "a"), .insertOrIncDependency (sampleDependency "a"),
    .insertOrIncDependency (sampleDependency "b"), .flushCaches]

theorem cached_transparentUpToIds_hit :
    TransparentUpToIds (.ofCapacity 1) Db.empty sampleOps :=
  cached_transparentUpToIds (LruCaches.ofCapacity_lawful 1).dependencyStates
    Table.identity_empty (by simp [Db.empty, Table.empty]) sampleOps

/-- The second call hits, and so the third row has the id 2 and not 3. -/
theorem not_transparent : ¬Transparent (.ofCapacity 1) Db.empty sampleOps := by
  intro h
  obtain ⟨w', hw'⟩ := h _ _ rfl
  have hthird := congrArg (fun r => r.toOption.bind fun r => r.1[2]?) hw'
  have hids : some (Shown.id 2) = some (Shown.id 3) := hthird
  cases hids

end Transparent

end NpmFollower.RelationalDbBuilder
