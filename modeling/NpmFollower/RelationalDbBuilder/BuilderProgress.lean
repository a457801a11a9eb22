import NpmFollower.DiffLogBuilder.ChangePages
import NpmFollower.RelationalDbBuilder.DiffLogPages
import NpmFollower.RelationalDbBuilder.LiveCounters

/-! # The positions of the builders

Both builders are processes of one loop. A COMMIT that fails is reported as a
success, and the loop goes on behind a page of which nothing is persisted.
-/

namespace NpmFollower.RelationalDbBuilder

open PostgresDb DiffLogBuilder

variable {C : LruCaches}

/-- The process of `relational_db_builder`, with the caches of its entry processor. -/
def relationalDbBuilder (E : Env) (C : LruCaches) (est : ℕ → ℕ → ℤ) :
    Builder (RelationalDbAccessor C) Db DiffLogEntry where
  seq := DiffLogEntry.seq
  query := queryDiffEntriesAfterSeq
  pageSize := currentPageSizeSeqs est
  lastPage _ := false
  new := .new
  processPage accessor entries db :=
    match processAndFlush E entries ⟨accessor, db⟩ with
    | .ok (_, w) => some (w.accessor, w.conn)
    | .error _ => none

theorem mem_queryDiffEntriesAfterSeq {diffLog : List DiffLogEntry} {afterSeq limitSize : ℤ}
    {e : DiffLogEntry} : e ∈ queryDiffEntriesAfterSeq diffLog afterSeq limitSize ↔
      e ∈ diffLog ∧ e.seq ∈ (Paging.keys DiffLogEntry.seq
        (diffLog.filter fun e => afterSeq < e.seq)).take limitSize.toNat := by
  simp [queryDiffEntriesAfterSeq, Paging.keys]

/-- The seqs of a page are the first ones, in whatever order the ids of its entries are. -/
theorem relationalDbBuilder_readsPages (E : Env) (est : ℕ → ℕ → ℤ) (diffLog : List DiffLogEntry) :
    (relationalDbBuilder E C est).ReadsPages diffLog := by
  constructor
  · intro shown after limit e he
    obtain ⟨hmem, hkey⟩ := mem_queryDiffEntriesAfterSeq.mp he
    obtain ⟨hlog, hshown⟩ := List.mem_filter.mp hmem
    obtain ⟨e', he', hseq⟩ := Paging.mem_keys.mp (List.mem_of_mem_take hkey)
    have hafter : after < e'.seq := by simpa using (List.mem_filter.mp he').2
    rw [hseq] at hafter
    exact ⟨hlog, hafter, by simpa using hshown⟩
  · intro shown after limit last e hlast he hshown hafter hle
    obtain ⟨-, hkeyLast⟩ := mem_queryDiffEntriesAfterSeq.mp (List.mem_of_getLast? hlast)
    have hvisible : e ∈ diffLog.filter fun e => e.seq ≤ shown :=
      List.mem_filter.mpr ⟨he, decide_eq_true hshown⟩
    apply mem_queryDiffEntriesAfterSeq.mpr
    refine ⟨hvisible, Paging.mem_take_of_le (Paging.mem_keys.mpr ⟨e, ?_, rfl⟩) hkeyLast hle⟩
    exact List.mem_filter.mpr ⟨hvisible, decide_eq_true hafter⟩

/-- The wrapper keeps its contract unless a COMMIT that was asked for fails, and the runs of both
builders stay in step exactly when none of their batches loses a COMMIT. -/
theorem transactions_iff (env : DiffLogBuilder.Env) (E : Env) (est : ℕ → ℕ → ℤ)
    {changeLog : List Change} (hseqs : (changeLog.map Change.seq).Nodup)
    (diffLog : List DiffLogEntry) :
    (∀ (δ ρ : Type) (commit : Option DieselError)
      (closure : δ → Except DieselError (ρ × Bool) × δ) (db : δ),
      ReportsCommit commit closure db ↔ commit = none ∨ ∀ r, (closure db).1 ≠ .ok (r, true)) ∧
    (∀ shown db as s,
      Runs.perform ((diffLogBuilder env).step changeLog) (Builder.initial shown db) as = some s →
      ((diffLogBuilder env).StaysInStep changeLog shown db as ↔
        (diffLogBuilder env).LosesNoCommit changeLog shown db as)) ∧
    ∀ shown db as s,
      Runs.perform ((relationalDbBuilder E C est).step diffLog) (Builder.initial shown db) as =
        some s →
      ((relationalDbBuilder E C est).StaysInStep diffLog shown db as ↔
        (relationalDbBuilder E C est).LosesNoCommit diffLog shown db as) := by
  refine ⟨?_, ?_, ?_⟩
  · intro δ ρ commit closure db
    exact reportsCommit_iff commit
  · intro shown db as s hrun
    exact Builder.staysInStep_iff (diffLogBuilder_readsPages env hseqs) shown db hrun
  · intro shown db as s hrun
    exact Builder.staysInStep_iff (relationalDbBuilder_readsPages E est diffLog) shown db hrun

/-- A run of one batch, with all the parameters in place. -/
theorem transactions_iff_oneBatch :
    ReportsCommit none (fun db : ℕ => (.ok ((), true), db + 1)) 0 ∧
    (diffLogBuilder DiffLogBuilder.sampleEnv).StaysInStep [sampleChange 1 [] [("1.0.0", "a")]] 1
      ⟨⟨∅, []⟩, none, []⟩ [.start, .batch none] ∧
    (relationalDbBuilder sampleEnv (.ofCapacity 1) fun _ _ => 0).StaysInStep
      [⟨1, 1, "p", .patchPackageReferences⟩] 1 ⟨.empty, none, []⟩ [.start] := by
  have hseqs : ([sampleChange 1 [] [("1.0.0", "a")]].map Change.seq).Nodup := by decide
  obtain ⟨hwrapper, hchanges, hentries⟩ := transactions_iff (C := .ofCapacity 1)
    DiffLogBuilder.sampleEnv sampleEnv (fun _ _ => 0) hseqs [⟨1, 1, "p", .patchPackageReferences⟩]
  refine ⟨(hwrapper _ _ _ _ _).mpr (Or.inl rfl), ?_, ?_⟩
  · have hsome : (Runs.perform
        ((diffLogBuilder DiffLogBuilder.sampleEnv).step [sampleChange 1 [] [("1.0.0", "a")]])
        (Builder.initial 1 ⟨⟨∅, []⟩, none, []⟩) [.start, .batch none]).isSome := by
      decide +kernel
    obtain ⟨s, hrun⟩ := Option.isSome_iff_exists.mp hsome
    apply (hchanges 1 _ _ s hrun).mpr
    intro before a t hprefix _ ⟨e, p, last, ha, _⟩
    have hmem := hprefix.subset (List.mem_append_right before List.mem_cons_self)
    simp [ha] at hmem
  · apply (hentries 1 _ _ _ rfl).mpr
    intro before a t hprefix _ ⟨e, p, last, ha, _⟩
    have hmem := hprefix.subset (List.mem_append_right before List.mem_cons_self)
    simp [ha] at hmem

/-- The result of a closure is returned although its COMMIT fails, and `diff_log_builder` is at 1
when the persisted position is 0. -/
theorem not_transactions :
    ¬ ReportsCommit (some (.other "could not serialize access"))
      (fun db : ℕ => (.ok ((), true), db + 1)) 0 ∧
    ¬ (diffLogBuilder DiffLogBuilder.sampleEnv).StaysInStep
      [sampleChange 1 [] [("1.0.0", "a")]] 1 ⟨⟨∅, []⟩, none, []⟩
      [.start, .batch (some (.other "could not serialize access"))] := by
  constructor
  · intro h
    obtain ⟨shouldCommit, heq, hcommit⟩ := (h.ok_iff ()).mp (by decide)
    cases heq
    simp at hcommit
  · intro h
    have hrun : (Runs.perform
        ((diffLogBuilder DiffLogBuilder.sampleEnv).step [sampleChange 1 [] [("1.0.0", "a")]])
        (Builder.initial 1 ⟨⟨∅, []⟩, none, []⟩)
        [.start, .batch (some (.other "could not serialize access"))]).map (fun s =>
          (s.db.position, s.process.map BuilderProcess.processedUpTo)) = some (0, some 1) := by
      decide +kernel
    obtain ⟨s, hs, heq⟩ := Option.map_eq_some_iff.mp hrun
    obtain ⟨hposition, hprocess⟩ := Prod.mk.inj heq
    obtain ⟨p, hp, hupTo⟩ := Option.map_eq_some_iff.mp hprocess
    have hle := (h _ s List.prefix_rfl hs).notAhead p hp
    rw [hupTo, hposition] at hle
    exact absurd hle (by decide)

end NpmFollower.RelationalDbBuilder
