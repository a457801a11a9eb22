import NpmFollower.RelationalDbBuilder.ProcessEntry

/-! # The counters at the end of a run

A run replays entries into an empty database and flushes the caches. Every entry
balances counters and live versions, but for a deletion of a version that is not
live: what it counts down is never counted up again.
-/

namespace NpmFollower.RelationalDbBuilder

open Std PostgresDb RelationalDbAccessor EntryProcessor

variable {C : LruCaches} (E : Env)

def processEntries (entries : List DiffLogEntry) : Run C Unit := entries.forM (processEntry E)

def processAndFlush (entries : List DiffLogEntry) : Run C Unit := do
  processEntries E entries
  flushCaches

theorem processEntries_cons (e : DiffLogEntry) (entries : List DiffLogEntry) :
    processEntries (C := C) E (e :: entries) =
      (do processEntry E e; processEntries E entries) := rfl

/-- Each counter is the number of times that live versions have the id of the row. -/
def CountersRight (db : Db) : Prop :=
  ∀ d ∈ db.dependencies.rows, ∀ t, d.counts.get t = live db t d.id ∧ 0 ≤ d.counts.get t

/-- The entry deletes a version with dependencies that is not live. -/
def DeletesAgain (db : Db) (e : DiffLogEntry) : Prop :=
  ∃ row, deletedAgain db e = some row ∧ ∃ t, row.dependencies t ≠ []

/-- No entry of the run deletes a version that is not live at that point. -/
def DeletesOnce : World C → List DiffLogEntry → Prop
  | _, [] => True
  | w, e :: entries =>
    ¬DeletesAgain w.conn e ∧ ∀ w', processEntry E e w = .ok ((), w') → DeletesOnce w' entries

section Entry

variable {db : Db} {e : DiffLogEntry}

theorem undercount_eq_zero (h : ¬DeletesAgain db e) (t : DependencyType) (i : ℤ) :
    undercount db e t i = 0 := by
  rw [undercount]
  cases hrow : deletedAgain db e with
  | none => rfl
  | some row =>
    have hnil : row.dependencies t = [] := by
      by_contra hne
      exact h ⟨row, hrow, t, hne⟩
    rw [Option.elim_some, hnil, List.count_nil]

/-- What is counted down without a live version for it is a row of dependencies. -/
theorem exists_undercount {w : World C} (hw : w.Inv) (h : DeletesAgain w.conn e) :
    ∃ t, ∃ d ∈ w.conn.dependencies.rows, 0 < undercount w.conn e t d.id := by
  obtain ⟨row, hrow, t, hne⟩ := h
  obtain ⟨i, hi⟩ := List.exists_mem_of_ne_nil _ hne
  have hmem : row ∈ w.conn.versions.rows := by
    cases hinstr : e.instr with
    | deleteVersion v =>
      simp only [deletedAgain, hinstr, Option.bind_eq_bind] at hrow
      obtain ⟨id, -, hrow⟩ := Option.bind_eq_some_iff.mp hrow
      obtain ⟨row', hfind, hrow⟩ := Option.bind_eq_some_iff.mp hrow
      split_ifs at hrow
      cases hrow
      exact Rows.mem_of_find hfind
    | _ => simp [deletedAgain, hinstr] at hrow
  obtain ⟨d, hd, rfl⟩ := hw.versionDeps row hmem t i hi
  refine ⟨t, d, hd, ?_⟩
  rw [undercount, hrow, Option.elim_some]
  exact List.count_pos_iff.mpr hi

end Entry

section Run

variable (hC : C.Lawful)

/-- What a run does to the deficits of the counters. -/
structure Replayed (w₀ : World C) (entries : List DiffLogEntry) (w : World C) : Prop where
  inv : w.Inv
  grows : Grows w₀ w
  le : ∀ t i, w₀.deficit t i ≤ w.deficit t i
  once : DeletesOnce E w₀ entries → ∀ t i, w.deficit t i = w₀.deficit t i
  again : ¬DeletesOnce E w₀ entries →
    ∃ t, ∃ d ∈ w.conn.dependencies.rows, w₀.deficit t d.id < w.deficit t d.id

include hC

theorem replayed_of_processEntries {w₀ w : World C} (hw₀ : w₀.Inv) {entries : List DiffLogEntry}
    (hrun : processEntries E entries w₀ = .ok ((), w)) : Replayed E w₀ entries w := by
  induction entries generalizing w₀ with
  | nil =>
    cases hrun
    exact ⟨hw₀, .refl _, fun _ _ => le_rfl, fun _ _ _ => rfl, fun h => absurd trivial h⟩
  | cons e entries ih =>
    rw [processEntries_cons, Hoare.bind_apply] at hrun
    cases hstep : processEntry E e w₀ with
    | error p =>
      rw [hstep] at hrun
      cases hrun
    | ok r =>
      obtain ⟨⟨⟩, w₁⟩ := r
      rw [hstep] at hrun
      have heffect := ((processEntry_triple hC E hw₀ e).of_ok hw₀.keeps hstep).1.effect
      have hrest := ih heffect.inv hrun
      have hle (t : DependencyType) (i : ℤ) : w₀.deficit t i ≤ w₁.deficit t i := by
        rw [heffect.deficit]
        exact le_add_of_nonneg_right (Nat.cast_nonneg _)
      refine ⟨hrest.inv, heffect.grows.trans hrest.grows,
        fun t i => (hle t i).trans (hrest.le t i), fun honce t i => ?_, fun hagain => ?_⟩
      · rw [hrest.once (honce.2 w₁ hstep), heffect.deficit, undercount_eq_zero honce.1]
        exact add_zero _
      · by_cases hfirst : DeletesAgain w₀.conn e
        · obtain ⟨t, d, hd, hpos⟩ := exists_undercount hw₀ hfirst
          obtain ⟨d', hd', -, hid⟩ := (heffect.grows.trans hrest.grows).dependencies d hd
          have hlt : w₀.deficit t d'.id < w₁.deficit t d'.id := by
            rw [heffect.deficit, hid]
            exact lt_add_of_pos_right _ (Nat.cast_pos.mpr hpos)
          exact ⟨t, d', hd', hlt.trans_le (hrest.le t d'.id)⟩
        · have hrestAgain : ¬DeletesOnce E w₁ entries := fun h =>
            hagain ⟨hfirst, fun w' hw' => by cases hstep.symm.trans hw'; exact h⟩
          obtain ⟨t, d, hd, hlt⟩ := hrest.again hrestAgain
          exact ⟨t, d, hd, (hle t d.id).trans_lt hlt⟩

theorem uncached_inv : (uncached C Db.empty).Inv where
  deps := uncached_depsInv hC.dependencyStates Table.identity_empty (by simp [Db.empty, Table.empty])
  packages := Table.identity_empty
  versions := Table.identity_empty
  packageIds name id h := by
    rw [World.packageIdEntry, uncached, new, hC.packageId.peek_new] at h
    cases h
  packageData name p h := by
    rw [World.packageDataEntry, uncached, new, hC.packageData.peek_new] at h
    cases h
  versionIds key id h := by
    rw [World.versionIdEntry, uncached, new, hC.versionId.peek_new] at h
    cases h
  versionDeps v hv := by cases hv

omit hC in
/-- After a flush the rows store what the accessor saw before. -/
theorem counts_of_flushed {w w' : World C} (hw : w.Inv) (h : Flushed w w') {d : Dependency}
    (hd : d ∈ w'.conn.dependencies.rows) (t : DependencyType) :
    d.counts.get t = live w'.conn t d.id - w.deficit t d.id := by
  obtain ⟨d₀, hd₀, hdigest, hid⟩ := exists_row_of_fixed
    (h.fixed.symm.trans (List.append_nil _).symm) hd
  have hview : w.depState.view (digest d) = some d.counts := by
    rw [← h.store, World.depState]
    dsimp only
    rw [Rows.find_of_mem h.inv.digests hd]
    rfl
  have hcounter := World.counter_of_mem (t := t) hw.deps hd₀
  rw [hid, hdigest, hview, Option.getD_some] at hcounter
  obtain ⟨deps, hframe⟩ := h.frame
  rw [World.deficit, hcounter, hframe]
  exact (sub_sub_cancel _ _).symm

/-- The counters are right at the end of a run if and only if no entry has deleted a version with
dependencies that was not live. -/
theorem countersRight_iff (entries : List DiffLogEntry) {w : World C}
    (hrun : processAndFlush E entries (uncached C .empty) = .ok ((), w)) :
    CountersRight w.conn ↔ DeletesOnce E (uncached C .empty) entries := by
  have hstart := uncached_inv hC
  rw [processAndFlush, Hoare.bind_apply] at hrun
  cases hprocess : processEntries E entries (uncached C .empty) with
  | error e =>
    rw [hprocess] at hrun
    cases hrun
  | ok r =>
    obtain ⟨⟨⟩, w₁⟩ := r
    rw [hprocess] at hrun
    have hreplayed := replayed_of_processEntries E hC hstart hprocess
    obtain ⟨w', hflush, hflushed⟩ := flushCaches_spec hreplayed.inv.deps
    cases hflush.symm.trans hrun
    have hzero (t : DependencyType) (i : ℤ) : (uncached C .empty).deficit t i = 0 := rfl
    constructor
    · intro hright
      by_contra hagain
      obtain ⟨t, d, hd, hlt⟩ := hreplayed.again hagain
      obtain ⟨d', hd', -, hid⟩ := exists_row_of_fixed
        (hflushed.fixed.trans (List.append_nil _).symm) hd
      have hcounts := counts_of_flushed hreplayed.inv hflushed hd' t
      rw [hzero] at hlt
      rw [(hright d' hd' t).1, hid] at hcounts
      omega
    · intro honce d hd t
      have hcounts := counts_of_flushed hreplayed.inv hflushed hd t
      rw [hreplayed.once honce, hzero, sub_zero] at hcounts
      exact ⟨hcounts, hcounts ▸ Nat.cast_nonneg _⟩

end Run

section Samples

def sampleEnv : Env where
  digests := ⟨id, fun _ => ""⟩
  deepSizeOf _ := 0
  dateTimeText _ := ""

def sampleVersion : VersionOnlyPackument where
  prodDependencies := [("q", ⟨.null, .tag "latest"⟩)]
  devDependencies := []
  peerDependencies := []
  optionalDependencies := []
  dist := ⟨"", none, none, none, none, none, none, none⟩
  repository := none
  time := 0
  extraMetadata := ∅

/-- The instructions for a package with a version that depends on `q`, and deletions of it. -/
def sampleInstrs (deletions : ℕ) : List DiffLogInstruction :=
  [.createPackage .deleted, .patchPackageReferences,
    .createVersion ⟨1, 0, 0, [], []⟩ sampleVersion] ++
    List.replicate deletions (.deleteVersion ⟨1, 0, 0, [], []⟩)

def sampleEntries (deletions : ℕ) : List DiffLogEntry :=
  (sampleInstrs deletions).map fun instr => ⟨1, 1, "p", instr⟩

def sampleCounts (deletions : ℕ) : Option (List FreqCounts) :=
  (processAndFlush sampleEnv (sampleEntries deletions) (uncached (.ofCapacity 1) .empty)).toOption.map
    fun r => r.2.conn.dependencies.rows.map (·.counts)

theorem countersRight_iff_deleted : ∃ w, processAndFlush sampleEnv (sampleEntries 1)
      (uncached (.ofCapacity 1) .empty) = .ok ((), w) ∧
    (CountersRight w.conn ↔
      DeletesOnce sampleEnv (uncached (.ofCapacity 1) .empty) (sampleEntries 1)) := by
  have hcounts : sampleCounts 1 = some [⟨0, 0, 0, 0⟩] := by decide +kernel
  obtain ⟨⟨_, w⟩, hrun, _⟩ := Hoare.exists_ok_of_toOption hcounts
  exact ⟨w, hrun, countersRight_iff sampleEnv (LruCaches.ofCapacity_lawful 1) (sampleEntries 1) hrun⟩

/-- A version that is deleted twice leaves a negative counter. -/
theorem not_countersRight : ∃ w, processAndFlush sampleEnv (sampleEntries 2)
      (uncached (.ofCapacity 1) .empty) = .ok ((), w) ∧ ¬CountersRight w.conn := by
  have hcounts : sampleCounts 2 = some [⟨-1, 0, 0, 0⟩] := by decide +kernel
  obtain ⟨⟨_, w⟩, hrun, hrows⟩ := Hoare.exists_ok_of_toOption hcounts
  refine ⟨w, hrun, fun hright => ?_⟩
  obtain ⟨d, hd, heq⟩ := List.mem_map.mp (hrows ▸ List.mem_singleton_self _ :
    (⟨-1, 0, 0, 0⟩ : FreqCounts) ∈ w.conn.dependencies.rows.map (·.counts))
  have hnonneg := (hright d hd .prod).2
  rw [heq] at hnonneg
  exact absurd hnonneg (by decide)

end Samples

end NpmFollower.RelationalDbBuilder
