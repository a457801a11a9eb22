import NpmFollower.Library.Hoare
import NpmFollower.Library.WriteBackCache
import NpmFollower.PostgresDb.Identity
import NpmFollower.RelationalDbBuilder.EntryProcessor

/-! # The cache of the dependency counters

The cached counters, the hashes that need a flush and the table of dependencies
are a write-back cache. Each operation of the accessor is one of its operations,
so the counters that a row has in the view are those of the calls so far.
-/

namespace NpmFollower.RelationalDbBuilder

open Std PostgresDb RelationalDbAccessor

variable {C : LruCaches}

abbrev digest (d : Dependency) : String := d.md5digestWithVersion

namespace World

variable (w : World C)

/-- The entry of the cache for a hash. -/
def depEntry (hash : String) : Option DependencyState :=
  C.dependencyStates.peek w.accessor.dependencyStatesCache hash

/-- The counters as a write-back cache, by the digest. -/
def depState : WriteBack.State String FreqCounts where
  store hash := (Rows.find digest w.conn.dependencies.rows hash).map (·.counts)
  cached hash := (w.depEntry hash).map (·.counts)
  dirty := {hash | hash ∈ w.accessor.needFlushSet}

structure DepsInv : Prop where
  identity : w.conn.dependencies.Identity Dependency.id
  digests : (w.conn.dependencies.rows.map digest).Nodup
  coherent : WriteBack.Coherent w.depState
  ids : ∀ hash state, w.depEntry hash = some state →
    ∃ d ∈ w.conn.dependencies.rows, digest d = hash ∧ d.id = state.id

end World

theorem insertDependencyIncCounts_eq (dep : NewDependency) (db : Db) :
    Dependencies.insertDependencyIncCounts dep db =
      if db.dependencies.nextId < 2 ^ 63 then
        match Rows.find digest db.dependencies.rows dep.md5digestWithVersion with
        | some row =>
          match row.counts.add dep.counts with
          | some counts => .ok ((row.id, counts), { db with dependencies := {
              rows := Rows.updateWhere digest db.dependencies.rows dep.md5digestWithVersion
                fun d => { d with counts }
              nextId := db.dependencies.nextId + 1 } })
          | none => .error (.database "Error inserting dependency")
        | none =>
          if Packages.foreignKey db dep.dstPackageIdIfExists then
            .ok ((db.dependencies.nextId, dep.counts), { db with dependencies := {
              rows := db.dependencies.rows ++ [{ dep with id := db.dependencies.nextId }]
              nextId := db.dependencies.nextId + 1 } })
          else .error (.database "Error inserting dependency")
      else .error (.database "Error inserting dependency") := by
  unfold Dependencies.insertDependencyIncCounts Table.nextval
  simp only [Hoare.bind_apply, Hoare.get_apply]
  by_cases hnext : db.dependencies.nextId < 2 ^ 63
  · simp only [if_pos hnext, expect, Hoare.pure_apply]
    cases hfind : Rows.find digest db.dependencies.rows dep.md5digestWithVersion with
    | some row =>
      dsimp only
      cases hadd : row.counts.add dep.counts with
      | some counts => rfl
      | none => rfl
    | none =>
      dsimp only
      cases hkey : Packages.foreignKey db dep.dstPackageIdIfExists <;> rfl
  · simp only [if_neg hnext]
    rfl

namespace World

/-- The world with another cache of counters and another table of dependencies. -/
def withDeps (w : World C) (cache : C.dependencyStates.State) (needFlush : ExtTreeSet String compare)
    (deps : Table Dependency) : World C where
  accessor := { w.accessor with dependencyStatesCache := cache, needFlushSet := needFlush }
  conn := { w.conn with dependencies := deps }

/-- The counters of a dependency after a call for it. -/
def nextCounts (w : World C) (dep : NewDependency) : FreqCounts :=
  ((w.depState.view dep.md5digestWithVersion).getD .zero).sum dep.counts

/-- What the counters and the other tables have to admit for a call to succeed. -/
def Admits (w : World C) (dep : NewDependency) : Prop :=
  match w.depState.view dep.md5digestWithVersion with
  | some counts => (counts.add dep.counts).isSome
  | none => Packages.foreignKey w.conn dep.dstPackageIdIfExists

def Accepts (w : World C) (dep : NewDependency) : Prop :=
  w.conn.dependencies.nextId < 2 ^ 63 ∧ w.Admits dep

/-- What a call for one dependency does. -/
structure DepStep (w : World C) (dep : NewDependency) (id : ℤ) (w' : World C) : Prop where
  frame : ∃ cache needFlush deps, w' = w.withDeps cache needFlush deps
  inv : w'.DepsInv
  view : w'.depState.view =
    Function.update w.depState.view dep.md5digestWithVersion (some (w.nextCounts dep))
  rows : w'.conn.dependencies.rows.map Dependency.fixed =
    w.conn.dependencies.rows.map Dependency.fixed ++
      if (w.depState.store dep.md5digestWithVersion).isSome then []
      else [Dependency.fixed { dep with id }]
  admits : w.Admits dep
  found : ∃ d ∈ w'.conn.dependencies.rows, digest d = dep.md5digestWithVersion ∧ d.id = id
  nextId : w.conn.dependencies.nextId ≤ w'.conn.dependencies.nextId ∧
    w'.conn.dependencies.nextId ≤ w.conn.dependencies.nextId + 1

end World

section Table

variable {t : Table Dependency} {i : ℤ} {counts : FreqCounts}

/-- The counters of the row with an id, set as a statement does it. -/
def setCounts (t : Table Dependency) (i : ℤ) (counts : FreqCounts) : Table Dependency :=
  { t with rows := Rows.updateWhere Dependency.id t.rows i fun d => { d with counts } }

theorem setCounts_identity (h : t.Identity Dependency.id) :
    (setCounts t i counts).Identity Dependency.id :=
  h.of_map_eq (Rows.map_updateWhere (f := fun d : Dependency => { d with counts })
    (fun _ => rfl) _ _) le_rfl

theorem setCounts_digests (t : Table Dependency) (i : ℤ) (counts : FreqCounts) :
    (setCounts t i counts).rows.map digest = t.rows.map digest :=
  Rows.map_updateWhere (f := fun d : Dependency => { d with counts }) (fun _ => rfl) _ _

theorem setCounts_fixed (t : Table Dependency) (i : ℤ) (counts : FreqCounts) :
    (setCounts t i counts).rows.map Dependency.fixed = t.rows.map Dependency.fixed :=
  Rows.map_updateWhere (f := fun d : Dependency => { d with counts }) (fun _ => rfl) _ _

/-- Each row is kept with its digest and its id. -/
theorem exists_row_of_fixed {l l' : List Dependency} {rest : List Dependency}
    (h : l'.map Dependency.fixed = l.map Dependency.fixed ++ rest) {d : Dependency} (hd : d ∈ l) :
    ∃ d' ∈ l', digest d' = digest d ∧ d'.id = d.id := by
  have hmem : d.fixed ∈ l'.map Dependency.fixed := by
    rw [h]
    exact List.mem_append_left _ (List.mem_map_of_mem hd)
  obtain ⟨d', hd', heq⟩ := List.mem_map.mp hmem
  have hdigest := congrArg digest heq
  have hid := congrArg Dependency.id heq
  exact ⟨d', hd', hdigest, hid⟩

theorem ids_of_fixed {l l' : List Dependency} (h : l'.map Dependency.fixed = l.map Dependency.fixed) :
    l'.map Dependency.id = l.map Dependency.id := by
  have hids := congrArg (List.map Dependency.id) h
  rwa [List.map_map, List.map_map] at hids

/-- The id of an inserted row comes after the ids that are there. -/
theorem lt_of_identity_append {t : Table Dependency} {l : List Dependency} {d : Dependency}
    (hid : t.Identity Dependency.id)
    (hrows : t.rows.map Dependency.fixed = l.map Dependency.fixed ++ [d.fixed]) :
    ∀ r ∈ l, r.id < d.id := by
  have hsorted := hid.sorted
  rw [ids_of_fixed (l := l ++ [d]) (by rw [hrows, List.map_append]; rfl), List.map_append,
    List.pairwise_append] at hsorted
  exact fun r hr => hsorted.2.2 r.id (List.mem_map_of_mem hr) d.id (by simp)

/-- Setting the counters of the row of a digest sets what is stored for this digest. -/
theorem store_setCounts (hid : t.Identity Dependency.id) (hdigests : (t.rows.map digest).Nodup) {d : Dependency} (hd : d ∈ t.rows)
    (hi : d.id = i) (hash : String) :
    (Rows.find digest (setCounts t i counts).rows hash).map (·.counts) =
      if hash = digest d then some counts else (Rows.find digest t.rows hash).map (·.counts) := by
  rw [setCounts, Rows.updateWhere, Rows.find_map (fun r => by split_ifs <;> rfl), Option.map_map]
  cases hfind : Rows.find digest t.rows hash with
  | none =>
    have hne : hash ≠ digest d := fun h => Rows.find_eq_none_iff.mp hfind d hd h.symm
    simp [hne]
  | some r =>
    have hr := Rows.mem_of_find hfind
    have hdigest := Rows.key_of_find hfind
    by_cases hri : r.id = i
    · cases List.inj_on_of_nodup_map hid.nodup hr hd (hri.trans hi.symm)
      simp [hri, hdigest]
    · have hne : hash ≠ digest d := fun h =>
        hri (List.inj_on_of_nodup_map hdigests hr hd (hdigest.trans h) ▸ hi)
      simp [hri, hne]

theorem setDependencyCounts_eq (counts : FreqCounts) {db : Db}
    (hid : db.dependencies.Identity Dependency.id) {d : Dependency} (hd : d ∈ db.dependencies.rows) :
    Dependencies.setDependencyCounts d.id counts db =
      .ok ((), { db with dependencies := setCounts db.dependencies d.id counts }) := by
  have hone : (db.dependencies.rows.filter fun r => r.id = d.id).length = 1 :=
    Rows.length_filter_key hid.nodup hd
  simp only [Dependencies.setDependencyCounts, Hoare.bind_apply, Hoare.get_apply, hone]
  rfl

end Table

section Evict

variable {w : World C} {cache : C.dependencyStates.State} {t : Table Dependency} {hash : String}
  {state : DependencyState}

theorem flushEvicted_none (w : World C) : flushEvicted none w = .ok ((), w) := rfl

theorem flushEvicted_clean (hclean : hash ∉ w.accessor.needFlushSet) :
    flushEvicted (some (hash, state)) w = .ok ((), w) := by
  simp only [flushEvicted, Hoare.bind_apply, Hoare.get_apply, if_neg hclean]
  rfl

theorem flushEvicted_dirty (hdirty : hash ∈ w.accessor.needFlushSet)
    (hid : w.conn.dependencies.Identity Dependency.id) {d : Dependency}
    (hd : d ∈ w.conn.dependencies.rows) (hstate : d.id = state.id) :
    flushEvicted (some (hash, state)) w = .ok ((), w.withDeps w.accessor.dependencyStatesCache
      (w.accessor.needFlushSet.erase hash)
      (setCounts w.conn.dependencies state.id state.counts)) := by
  have hset := setDependencyCounts_eq state.counts hid hd
  rw [hstate] at hset
  simp only [flushEvicted, Hoare.bind_apply, Hoare.get_apply, if_pos hdirty, update,
    Hoare.modify_apply, query, hset]
  rfl

end Evict

section Miss

/-- The row of a dependency that is not cached, inserted or with its counters increased. -/
structure Inserted (w : World C) (dep : NewDependency) (id : ℤ) (counts : FreqCounts)
    (t : Table Dependency) : Prop where
  identity : t.Identity Dependency.id
  digests : (t.rows.map digest).Nodup
  next : counts = w.nextCounts dep
  store : ∀ hash, (Rows.find digest t.rows hash).map (·.counts) =
    if hash = dep.md5digestWithVersion then some counts else w.depState.store hash
  rows : t.rows.map Dependency.fixed =
    w.conn.dependencies.rows.map Dependency.fixed ++
      if (w.depState.store dep.md5digestWithVersion).isSome then []
      else [Dependency.fixed { dep with id }]
  accepts : w.Accepts dep
  found : ∃ d ∈ t.rows, digest d = dep.md5digestWithVersion ∧ d.id = id
  nextId : t.nextId = w.conn.dependencies.nextId + 1

theorem not_accepts_of_error {w : World C} {dep : NewDependency} {e : Panic}
    (hentry : w.depEntry dep.md5digestWithVersion = none)
    (hins : Dependencies.insertDependencyIncCounts dep w.conn = .error e) :
    e.isOther ∧ ¬w.Accepts dep := by
  have hview : w.depState.view dep.md5digestWithVersion =
      (Rows.find digest w.conn.dependencies.rows dep.md5digestWithVersion).map (·.counts) :=
    WriteBack.State.view_of_not_cached (congrArg (Option.map DependencyState.counts) hentry)
  rw [insertDependencyIncCounts_eq] at hins
  rw [World.Accepts, World.Admits, hview]
  by_cases hnext : w.conn.dependencies.nextId < 2 ^ 63
  · rw [if_pos hnext] at hins
    cases hfind : Rows.find digest w.conn.dependencies.rows dep.md5digestWithVersion with
    | some row =>
      rw [hfind] at hins
      dsimp only at hins
      cases hadd : row.counts.add dep.counts with
      | some counts => rw [hadd] at hins; cases hins
      | none =>
        rw [hadd] at hins
        cases hins
        simp [Panic.isOther, hadd]
    | none =>
      rw [hfind] at hins
      dsimp only at hins
      split_ifs at hins with hkey
      cases hins
      simp [Panic.isOther, hkey]
  · rw [if_neg hnext] at hins
    cases hins
    exact ⟨rfl, fun h => hnext h.1⟩

variable (hC : C.dependencyStates.Lawful) {w : World C} (hw : w.DepsInv) {dep : NewDependency}
  (hentry : w.depEntry dep.md5digestWithVersion = none)

include hw hentry

theorem inserted_of_ok {id : ℤ} {counts : FreqCounts} {conn : Db}
    (hok : Dependencies.insertDependencyIncCounts dep w.conn = .ok ((id, counts), conn)) :
    ∃ t, conn = { w.conn with dependencies := t } ∧ Inserted w dep id counts t := by
  have hview : w.depState.view dep.md5digestWithVersion =
      (Rows.find digest w.conn.dependencies.rows dep.md5digestWithVersion).map (·.counts) :=
    WriteBack.State.view_of_not_cached (congrArg (Option.map DependencyState.counts) hentry)
  have hstore : w.depState.store dep.md5digestWithVersion =
      (Rows.find digest w.conn.dependencies.rows dep.md5digestWithVersion).map (·.counts) := rfl
  have hnext : w.conn.dependencies.nextId < 2 ^ 63 := by
    by_contra hnext
    rw [insertDependencyIncCounts_eq, if_neg hnext] at hok
    cases hok
  rw [insertDependencyIncCounts_eq, if_pos hnext] at hok
  cases hfind : Rows.find digest w.conn.dependencies.rows dep.md5digestWithVersion with
  | some row =>
    rw [hfind] at hok hview hstore
    dsimp only at hok
    cases hadd : row.counts.add dep.counts with
    | none => rw [hadd] at hok; cases hok
    | some c =>
      rw [hadd] at hok
      cases hok
      refine ⟨_, rfl, ⟨?_, ?_, ?_, ?_, ?_, ?_, ?_, rfl⟩⟩
      · exact hw.identity.of_map_eq (Rows.map_updateWhere
          (f := fun d : Dependency => { d with counts }) (fun _ => rfl) _ _) (by simp)
      · rw [Rows.map_updateWhere (f := fun d : Dependency => { d with counts }) fun _ => rfl]
        exact hw.digests
      · rw [World.nextCounts, hview]
        exact FreqCounts.eq_sum_of_add hadd
      · intro hash
        rw [Rows.find_updateWhere (f := fun d : Dependency => { d with counts }) fun _ => rfl,
          Option.map_map]
        split_ifs with hhash
        · rw [hhash, hfind]
          simp [digest, Rows.key_of_find hfind]
        · refine Option.map_congr fun r hr => ?_
          have hne : digest r ≠ dep.md5digestWithVersion := (Rows.key_of_find hr).symm ▸ hhash
          simp [hne]
      · rw [Rows.map_updateWhere (f := fun d : Dependency => { d with counts }) fun _ => rfl]
        simp [hstore]
      · rw [World.Accepts, World.Admits, hview]
        exact ⟨hnext, Option.isSome_of_eq_some hadd⟩
      · have hkey := Rows.key_of_find hfind
        refine ⟨{ row with counts }, ?_, hkey, rfl⟩
        rw [Rows.mem_updateWhere]
        exact ⟨row, Rows.mem_of_find hfind, by rw [if_pos hkey]⟩
  | none =>
    rw [hfind] at hok hview hstore
    dsimp only at hok
    split_ifs at hok with hkey
    cases hok
    have hfresh := Rows.find_eq_none_iff.mp hfind
    refine ⟨_, rfl, ⟨hw.identity.insert rfl, ?_, ?_, ?_, ?_, ?_, ?_, rfl⟩⟩
    · rw [List.map_append, List.nodup_append]
      refine ⟨hw.digests, List.nodup_singleton _, ?_⟩
      intro a ha b hb
      obtain ⟨d, hd, rfl⟩ := List.mem_map.mp ha
      rw [List.map_singleton, List.mem_singleton] at hb
      exact hb ▸ hfresh d hd
    · simp [World.nextCounts, hview]
    · intro hash
      rw [Rows.find_append_singleton]
      split_ifs with hdigest hhash hhash
      · rw [hhash, hfind]
        rfl
      · exact absurd hdigest.symm hhash
      · exact absurd hhash.symm hdigest
      · rw [Option.or_none]
        rfl
    · rw [hstore, List.map_append]
      rfl
    · rw [World.Accepts, World.Admits, hview]
      exact ⟨hnext, hkey⟩
    · exact ⟨_, List.mem_append_right _ (List.mem_singleton_self _), rfl, rfl⟩

include hC

/-- The step that a call makes when the dependency is not cached: after its row the pushed entry,
and after that the entry that the push has evicted. -/
theorem depStep_miss {id : ℤ} {counts : FreqCounts} {t : Table Dependency}
    (hins : Inserted w dep id counts t) :
    ∃ w', flushEvicted (C.dependencyStates.push w.accessor.dependencyStatesCache
        dep.md5digestWithVersion ⟨id, counts⟩).1
      (w.withDeps (C.dependencyStates.push w.accessor.dependencyStatesCache
        dep.md5digestWithVersion ⟨id, counts⟩).2 w.accessor.needFlushSet t) = .ok ((), w') ∧
      w.DepStep dep id w' := by
  generalize hpushed : C.dependencyStates.push w.accessor.dependencyStatesCache
    dep.md5digestWithVersion ⟨id, counts⟩ = pushed
  obtain ⟨evicted, cache⟩ := pushed
  have hcached : w.depState.cached dep.md5digestWithVersion = none :=
    congrArg (Option.map DependencyState.counts) hentry
  have hpeek (hash : String) : C.dependencyStates.peek cache hash =
      if hash = dep.md5digestWithVersion then some ⟨id, counts⟩
      else if evicted.any (fun e => e.1 = hash) then none
      else w.depEntry hash := by
    have hpeek := hC.peek_push w.accessor.dependencyStatesCache dep.md5digestWithVersion ⟨id, counts⟩
      hash
    rwa [hpushed] at hpeek
  have hids (hash : String) (state : DependencyState)
      (hstate : C.dependencyStates.peek cache hash = some state) :
      ∃ d ∈ t.rows, digest d = hash ∧ d.id = state.id := by
    rw [hpeek] at hstate
    split_ifs at hstate with hhash
    · cases hstate
      obtain ⟨d, hd, hdigest, hid⟩ := hins.found
      exact ⟨d, hd, hdigest.trans hhash.symm, hid⟩
    · obtain ⟨d, hd, hdigest, hid⟩ := hw.ids hash state hstate
      obtain ⟨d', hd', hdigest', hid'⟩ := exists_row_of_fixed hins.rows hd
      exact ⟨d', hd', hdigest'.trans hdigest, hid'.trans hid⟩
  have hload := hw.coherent.load hcached counts
  have hview := w.depState.view_load dep.md5digestWithVersion counts
  have hstored (hash : String) : (Rows.find digest t.rows hash).map (·.counts) =
      (w.depState.load dep.md5digestWithVersion counts).store hash := by
    rw [hins.store, WriteBack.State.load_store]
  -- what remains to be said of a world whose counters are the loaded ones, with or without eviction
  have hstep {needFlush : ExtTreeSet String compare} {t' : Table Dependency}
      (hcoherent : WriteBack.Coherent (w.withDeps cache needFlush t').depState)
      (hview' : (w.withDeps cache needFlush t').depState.view =
        (w.depState.load dep.md5digestWithVersion counts).view)
      (hidentity : t'.Identity Dependency.id) (hdigests : t'.rows.map digest = t.rows.map digest)
      (hfixed : t'.rows.map Dependency.fixed = t.rows.map Dependency.fixed)
      (hnext : t'.nextId = t.nextId) : w.DepStep dep id (w.withDeps cache needFlush t') := by
    have hrow {d : Dependency} (hd : d ∈ t.rows) := exists_row_of_fixed
      (hfixed.trans (List.append_nil _).symm) hd
    refine ⟨⟨_, _, _, rfl⟩, ⟨hidentity, hdigests ▸ hins.digests, hcoherent, ?_⟩, ?_,
      hfixed.trans hins.rows, hins.accepts.2, ?_, ?_⟩
    · intro hash state hstate
      obtain ⟨d, hd, hdigest, hid⟩ := hids hash state hstate
      obtain ⟨d', hd', hdigest', hid'⟩ := hrow hd
      exact ⟨d', hd', hdigest'.trans hdigest, hid'.trans hid⟩
    · rw [hview', hview, hins.next]
    · obtain ⟨d, hd, hdigest, hid⟩ := hins.found
      obtain ⟨d', hd', hdigest', hid'⟩ := hrow hd
      exact ⟨d', hd', hdigest'.trans hdigest, hid'.trans hid⟩
    · change w.conn.dependencies.nextId ≤ t'.nextId ∧ t'.nextId ≤ _
      rw [hnext, hins.nextId]
      simp
  cases evicted with
  | none =>
    have hstate : (w.withDeps cache w.accessor.needFlushSet t).depState =
        w.depState.load dep.md5digestWithVersion counts := by
      refine WriteBack.State.ext (funext hstored) (funext fun hash => ?_) rfl
      rw [WriteBack.State.load_cached]
      change Option.map _ (C.dependencyStates.peek cache hash) = _
      rw [hpeek]
      split_ifs
      · rfl
      · contradiction
      · rfl
    exact ⟨_, flushEvicted_none _, hstep (hstate ▸ hload) (by rw [hstate]) hins.identity rfl rfl rfl⟩
  | some e =>
    obtain ⟨hash', state⟩ := e
    have hevicted : w.depEntry hash' = some state := by
      have hpush := hC.push_fst w.accessor.dependencyStatesCache dep.md5digestWithVersion
        ⟨id, counts⟩ hash' state
      rw [hpushed] at hpush
      exact hpush rfl
    have hne : hash' ≠ dep.md5digestWithVersion := by
      rintro rfl
      rw [hentry] at hevicted
      cases hevicted
    have hloaded : (w.depState.load dep.md5digestWithVersion counts).cached hash' =
        some state.counts := by
      rw [WriteBack.State.load_cached, if_neg hne]
      exact congrArg (Option.map DependencyState.counts) hevicted
    have hcache (hash : String) : (C.dependencyStates.peek cache hash).map (·.counts) =
        ((w.depState.load dep.md5digestWithVersion counts).evict hash').cached hash := by
      rw [hpeek, WriteBack.State.evict_cached, WriteBack.State.load_cached]
      by_cases hh : hash = hash'
      · simp [hh, hne]
      · by_cases hd : hash = dep.md5digestWithVersion
        · simp [hd, Ne.symm hne]
        · simp only [hh, Ne.symm hh, hd, Option.any_some, decide_false, if_false,
            Bool.false_eq_true]
          rfl
    by_cases hdirty : hash' ∈ w.accessor.needFlushSet
    · obtain ⟨d, hd, hdigest, hid⟩ := hw.ids hash' state hevicted
      obtain ⟨d', hd', hdigest', hid'⟩ := exists_row_of_fixed hins.rows hd
      have hflush := flushEvicted_dirty (w := w.withDeps cache w.accessor.needFlushSet t)
        hdirty hins.identity hd' (hid'.trans hid)
      have hstate : (w.withDeps cache (w.accessor.needFlushSet.erase hash')
          (setCounts t state.id state.counts)).depState =
            (w.depState.load dep.md5digestWithVersion counts).evict hash' := by
        refine WriteBack.State.ext (funext fun hash => ?_) (funext hcache) (Set.ext fun hash => ?_)
        · change Option.map _ (Rows.find digest (setCounts t state.id state.counts).rows hash) = _
          rw [store_setCounts hins.identity hins.digests hd' (hid'.trans hid),
            WriteBack.State.evict_store_of_dirty _ _ _ hdirty, hstored, hloaded, hdigest', hdigest]
        · change hash ∈ w.accessor.needFlushSet.erase hash' ↔ hash ∈ w.depState.dirty \ {hash'}
          rw [ExtTreeSet.mem_erase, Ne, LawfulEqCmp.compare_eq_iff_eq, Set.mem_sdiff_singleton,
            and_comm, eq_comm]
          rfl
      have hstepped : w.DepStep dep id (w.withDeps cache (w.accessor.needFlushSet.erase hash')
          (setCounts t state.id state.counts)) :=
        hstep (hstate ▸ hload.evict hash') (by rw [hstate, hload.view_evict])
          (setCounts_identity hins.identity) (setCounts_digests _ _ _) (setCounts_fixed _ _ _) rfl
      exact ⟨_, hflush, hstepped⟩
    · have hstate : (w.withDeps cache w.accessor.needFlushSet t).depState =
          (w.depState.load dep.md5digestWithVersion counts).evict hash' := by
        refine WriteBack.State.ext (funext fun hash => ?_) (funext hcache) (Set.ext fun hash => ?_)
        · rw [WriteBack.State.evict_store_of_clean _ _ hdirty]
          exact hstored hash
        · change hash ∈ w.accessor.needFlushSet ↔ hash ∈ w.depState.dirty \ {hash'}
          refine ⟨fun hhash => ⟨hhash, ?_⟩, fun h => h.1⟩
          rintro rfl
          exact hdirty hhash
      exact ⟨_, flushEvicted_clean hdirty, hstep (hstate ▸ hload.evict hash')
        (by rw [hstate, hload.view_evict]) hins.identity rfl rfl rfl⟩

end Miss

section Insert

variable (hC : C.dependencyStates.Lawful) {w : World C} (hw : w.DepsInv) (dep : NewDependency)

theorem insertOrIncDependency_hit {state : DependencyState}
    {write : DependencyState → C.dependencyStates.State}
    (hget : C.dependencyStates.getMut w.accessor.dependencyStatesCache dep.md5digestWithVersion =
      some (state, write)) :
    insertOrIncDependency dep w = match state.counts.add dep.counts with
      | some counts => .ok (state.id, w.withDeps (write { state with counts })
          (w.accessor.needFlushSet.insert dep.md5digestWithVersion) w.conn.dependencies)
      | none => .error .overflow := by
  simp only [insertOrIncDependency, Hoare.bind_apply, Hoare.get_apply, hget, update,
    Hoare.modify_apply]
  cases state.counts.add dep.counts <;> rfl

include hC hw

theorem depStep_hit {state : DependencyState}
    {write : DependencyState → C.dependencyStates.State}
    (hget : C.dependencyStates.getMut w.accessor.dependencyStatesCache dep.md5digestWithVersion =
      some (state, write))
    {counts : FreqCounts} (hadd : state.counts.add dep.counts = some counts) :
    w.DepStep dep state.id (w.withDeps (write { state with counts })
      (w.accessor.needFlushSet.insert dep.md5digestWithVersion) w.conn.dependencies) := by
  have hentry : w.depEntry dep.md5digestWithVersion = some state := by
    rw [World.depEntry, ← hC.getMut_fst, hget]
    rfl
  have hcached : w.depState.cached dep.md5digestWithVersion = some state.counts :=
    congrArg (Option.map DependencyState.counts) hentry
  have hview := WriteBack.State.view_of_cached hcached
  have hcounts : counts = w.nextCounts dep := by
    rw [World.nextCounts, hview, Option.getD_some]
    exact FreqCounts.eq_sum_of_add hadd
  have hpeek (hash : String) : (w.withDeps (write { state with counts })
      (w.accessor.needFlushSet.insert dep.md5digestWithVersion) w.conn.dependencies).depEntry hash =
        if hash = dep.md5digestWithVersion then some { state with counts } else w.depEntry hash :=
    hC.peek_getMut _ _ _ _ hget _ _
  have hstate : (w.withDeps (write { state with counts })
      (w.accessor.needFlushSet.insert dep.md5digestWithVersion) w.conn.dependencies).depState =
        w.depState.write dep.md5digestWithVersion counts := by
    rw [World.depState, WriteBack.State.write]
    congr 1
    · funext hash
      rw [hpeek, Function.update_apply]
      split_ifs <;> rfl
    · ext hash
      change hash ∈ w.accessor.needFlushSet.insert _ ↔ hash ∈ insert _ w.depState.dirty
      rw [ExtTreeSet.mem_insert, LawfulEqCmp.compare_eq_iff_eq, Set.mem_insert_iff, eq_comm]
      rfl
  refine ⟨⟨_, _, _, rfl⟩, ⟨hw.identity, hw.digests, ?_, ?_⟩, ?_, ?_, ?_, ?_, le_rfl, by simp [World.withDeps]⟩
  · rw [hstate]
    exact hw.coherent.write (by simp [hcached]) counts
  · intro hash state' hstate'
    rw [hpeek] at hstate'
    split_ifs at hstate' with hhash
    · cases hstate'
      obtain ⟨d, hd, hdigest, hid⟩ := hw.ids _ _ hentry
      exact ⟨d, hd, hdigest.trans hhash.symm, hid⟩
    · exact hw.ids hash state' hstate'
  · rw [hstate, WriteBack.State.view_write, hcounts]
  · have hstored : (w.depState.store dep.md5digestWithVersion).isSome :=
      hw.coherent.stored _ (by simp [hcached])
    simp [hstored, World.withDeps]
  · rw [World.Admits, hview]
    exact Option.isSome_of_eq_some hadd
  · exact hw.ids _ _ hentry

omit hC hw in
theorem insertOrIncDependency_miss
    (hget : C.dependencyStates.getMut w.accessor.dependencyStatesCache dep.md5digestWithVersion = none) :
    insertOrIncDependency dep w =
      match Dependencies.insertDependencyIncCounts dep w.conn with
      | .ok ((id, counts), conn) =>
        match flushEvicted (C.dependencyStates.push w.accessor.dependencyStatesCache
            dep.md5digestWithVersion ⟨id, counts⟩).1
          (World.withDeps { w with conn } (C.dependencyStates.push w.accessor.dependencyStatesCache
            dep.md5digestWithVersion ⟨id, counts⟩).2 w.accessor.needFlushSet conn.dependencies) with
        | .ok ((), w') => .ok (id, w')
        | .error e => .error e
      | .error e => .error e := by
  simp only [insertOrIncDependency, Hoare.bind_apply, Hoare.get_apply, hget, update,
    Hoare.modify_apply, query]
  cases Dependencies.insertDependencyIncCounts dep w.conn with
  | error e => rfl
  | ok r =>
    obtain ⟨⟨id, counts⟩, conn⟩ := r
    dsimp only [World.withDeps]
    generalize flushEvicted _ _ = flushed
    cases flushed <;> rfl

/-- A call for a dependency makes its step, or fails on what the database or a counter refuses. -/
theorem insertOrIncDependency_spec :
    match insertOrIncDependency dep w with
    | .ok (id, w') => w.DepStep dep id w'
    | .error e => e.isOther ∧ ¬w.Accepts dep := by
  cases hget : C.dependencyStates.getMut w.accessor.dependencyStatesCache
    dep.md5digestWithVersion with
  | some r =>
    obtain ⟨state, write⟩ := r
    rw [insertOrIncDependency_hit dep hget]
    cases hadd : state.counts.add dep.counts with
    | some counts => exact depStep_hit hC hw dep hget hadd
    | none =>
      refine ⟨rfl, fun haccepts => ?_⟩
      have hentry : w.depEntry dep.md5digestWithVersion = some state := by
        rw [World.depEntry, ← hC.getMut_fst, hget]
        rfl
      have hview := WriteBack.State.view_of_cached (s := w.depState)
        (congrArg (Option.map DependencyState.counts) hentry)
      rw [World.Accepts, World.Admits, hview] at haccepts
      simp [hadd] at haccepts
  | none =>
    have hentry : w.depEntry dep.md5digestWithVersion = none := by
      rw [World.depEntry, ← hC.getMut_fst, hget]
      rfl
    rw [insertOrIncDependency_miss dep hget]
    cases hins : Dependencies.insertDependencyIncCounts dep w.conn with
    | ok r =>
      obtain ⟨⟨id, counts⟩, conn⟩ := r
      obtain ⟨t, rfl, hinserted⟩ := inserted_of_ok hw hentry hins
      obtain ⟨w', hflush, hstep⟩ := depStep_miss hC hw hentry hinserted
      dsimp only
      rw [show World.withDeps { w with conn := { w.conn with dependencies := t } } _ _ t =
        w.withDeps _ _ t from rfl, hflush]
      exact hstep
    | error e => exact not_accepts_of_error hentry hins

end Insert

section Flush

variable {w : World C} {hash : String}

/-- A world in the middle of a flush: the hashes in `done` have been written back. -/
structure Flushing (w₀ : World C) (done : List String) (w : World C) : Prop where
  frame : ∃ deps, w = w₀.withDeps w₀.accessor.dependencyStatesCache w₀.accessor.needFlushSet deps
  inv : w.DepsInv
  view : w.depState.view = w₀.depState.view
  fixed : w.conn.dependencies.rows.map Dependency.fixed =
    w₀.conn.dependencies.rows.map Dependency.fixed
  nextId : w.conn.dependencies.nextId = w₀.conn.dependencies.nextId
  done : ∀ hash ∈ done, w.depState.store hash = w.depState.view hash

theorem flushHash_eq (hw : w.DepsInv) {state : DependencyState}
    (hentry : w.depEntry hash = some state) : flushHash hash w =
      .ok ((), w.withDeps w.accessor.dependencyStatesCache w.accessor.needFlushSet
        (setCounts w.conn.dependencies state.id state.counts)) := by
  obtain ⟨d, hd, _, hid⟩ := hw.ids hash state hentry
  have hset := setDependencyCounts_eq state.counts hw.identity hd
  rw [hid] at hset
  rw [World.depEntry] at hentry
  simp only [flushHash, Hoare.bind_apply, Hoare.get_apply, hentry, expect, Hoare.pure_apply, query,
    hset]
  rfl

theorem flushing_flushHash {w₀ : World C} {done : List String}
    (hmem : hash ∈ w₀.accessor.needFlushSet) :
    Hoare.Triple (Flushing w₀ done) (flushHash hash) (fun _ => Flushing w₀ (done ++ [hash]))
      fun _ => False := by
  intro w hw
  have hdirty : hash ∈ w.depState.dirty := by
    obtain ⟨deps, hframe⟩ := hw.frame
    rw [hframe]
    exact hmem
  have hcached := hw.inv.coherent.dirty_cached hash hdirty
  obtain ⟨state, hentry⟩ := Option.isSome_iff_exists.mp (Option.isSome_map.symm.trans hcached)
  obtain ⟨d, hd, hdigest, hid⟩ := hw.inv.ids hash state hentry
  rw [flushHash_eq hw.inv hentry]
  dsimp only
  have hcounts : w.depState.cached hash = some state.counts :=
    congrArg (Option.map DependencyState.counts) hentry
  have hstate : (w.withDeps w.accessor.dependencyStatesCache w.accessor.needFlushSet
      (setCounts w.conn.dependencies state.id state.counts)).depState =
        w.depState.writeBack hash := by
    refine WriteBack.State.ext (funext fun hash' => ?_) rfl rfl
    rw [WriteBack.State.writeBack_store, hcounts, ← hdigest]
    exact store_setCounts hw.inv.identity hw.inv.digests hd hid hash'
  refine ⟨?_, ⟨setCounts_identity hw.inv.identity, ?_, ?_, ?_⟩, ?_, ?_, hw.nextId, ?_⟩
  · obtain ⟨deps, hframe⟩ := hw.frame
    exact ⟨setCounts w.conn.dependencies state.id state.counts, by rw [hframe]; rfl⟩
  · exact (setCounts_digests _ _ _).symm ▸ hw.inv.digests
  · exact hstate ▸ hw.inv.coherent.writeBack hcached
  · intro hash' state' hentry'
    obtain ⟨d', hd', hdigest', hid'⟩ := hw.inv.ids hash' state' hentry'
    obtain ⟨r, hr, hrdigest, hrid⟩ := exists_row_of_fixed
      ((setCounts_fixed w.conn.dependencies state.id state.counts).trans (List.append_nil _).symm) hd'
    exact ⟨r, hr, hrdigest.trans hdigest', hrid.trans hid'⟩
  · rw [hstate, WriteBack.Coherent.view_writeBack hcached, hw.view]
  · exact (setCounts_fixed _ _ _).trans hw.fixed
  · intro hash' hhash'
    rw [hstate, WriteBack.Coherent.view_writeBack hcached, WriteBack.State.writeBack_store]
    split_ifs with hh
    · rw [hh, WriteBack.State.view_of_cached hcounts, hcounts]
    · rcases List.mem_append.mp hhash' with h | h
      · exact hw.done hash' h
      · exact absurd (List.mem_singleton.mp h) hh

/-- What a flush does: the view is stored, and nothing needs a flush. -/
structure Flushed (w w' : World C) : Prop where
  frame : ∃ deps, w' = w.withDeps w.accessor.dependencyStatesCache ∅ deps
  inv : w'.DepsInv
  view : w'.depState.view = w.depState.view
  store : w'.depState.store = w.depState.view
  fixed : w'.conn.dependencies.rows.map Dependency.fixed =
    w.conn.dependencies.rows.map Dependency.fixed
  nextId : w'.conn.dependencies.nextId = w.conn.dependencies.nextId

/-- A flush never fails: every hash that needs it is in the cache, and its row in the table. -/
theorem flushCaches_spec (hw : w.DepsInv) : ∃ w', flushCaches w = .ok ((), w') ∧ Flushed w w' := by
  have hstart : Flushing w [] w := ⟨⟨_, rfl⟩, hw, rfl, rfl, rfl, by simp⟩
  have hloop := Hoare.Triple.forM w.accessor.needFlushSet.toList (Flushing w) fun done hash rest h =>
    flushing_flushHash
      (ExtTreeSet.mem_toList.mp (by rw [h]; simp))
  have hrun := hloop w hstart
  cases hforM : w.accessor.needFlushSet.toList.forM flushHash w with
  | error e =>
    rw [hforM] at hrun
    exact hrun.elim
  | ok r =>
    obtain ⟨_, w'⟩ := r
    rw [hforM] at hrun
    have hstore : w'.depState.store = w'.depState.view := by
      funext hash
      by_cases hdirty : hash ∈ w.accessor.needFlushSet
      · exact hrun.done hash (ExtTreeSet.mem_toList.mpr hdirty)
      · refine (hrun.inv.coherent.view_of_not_dirty ?_).symm
        obtain ⟨deps, hframe⟩ := hrun.frame
        rw [hframe]
        exact hdirty
    have hview : (w'.withDeps w'.accessor.dependencyStatesCache ∅ w'.conn.dependencies).depState.view =
        w'.depState.view := rfl
    refine ⟨w'.withDeps w'.accessor.dependencyStatesCache ∅ w'.conn.dependencies, ?_, ?_,
      ⟨hrun.inv.identity, hrun.inv.digests, ?_, hrun.inv.ids⟩, ?_, ?_, hrun.fixed, hrun.nextId⟩
    · simp only [flushCaches, Hoare.bind_apply, Hoare.get_apply, hforM, update, Hoare.modify_apply]
      rfl
    · obtain ⟨deps, hframe⟩ := hrun.frame
      exact ⟨deps, by rw [hframe]; rfl⟩
    · refine ⟨fun hash h => ?_, fun hash counts hcached _ => ?_, hrun.inv.coherent.stored⟩
      · exact absurd h ExtTreeSet.not_mem_empty
      · exact (congrFun hstore hash).trans (WriteBack.State.view_of_cached hcached)
    · rw [hview, hrun.view]
    · exact hstore.trans hrun.view

end Flush

section Uncached

variable (hC : C.dependencyStates.Lawful) {db : Db}

include hC

theorem uncached_depEntry (hash : String) : (uncached C db).depEntry hash = none := hC.peek_new hash

theorem uncached_view : (uncached C db).depState.view = (uncached C db).depState.store :=
  funext fun hash => WriteBack.State.view_of_not_cached
    (congrArg (Option.map DependencyState.counts) (uncached_depEntry hC hash))

theorem uncached_depsInv (hid : db.dependencies.Identity Dependency.id)
    (hdigests : (db.dependencies.rows.map digest).Nodup) : (uncached C db).DepsInv := by
  have hcached (hash : String) : (uncached C db).depState.cached hash = none :=
    congrArg (Option.map DependencyState.counts) (uncached_depEntry hC hash)
  refine ⟨hid, hdigests, ⟨fun hash h => ?_, fun hash counts h => ?_, fun hash h => ?_⟩,
    fun hash state h => ?_⟩
  · exact absurd h ExtTreeSet.not_mem_empty
  · rw [hcached] at h
    cases h
  · rw [hcached] at h
    cases h
  · rw [uncached_depEntry hC] at h
    cases h

end Uncached

end NpmFollower.RelationalDbBuilder
