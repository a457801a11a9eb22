import NpmFollower.ChangesFetcher.Listener
import NpmFollower.Follower.EmittedRows
import NpmFollower.PostgresDb.BuilderRuns
import NpmFollower.RelationalDbBuilder.BuilderProgress

/-! # The services that follow the registry

The fetcher writes the change log, one builder makes the diff log of it and another
one the relational tables of that. The three run at the same time, and each may be
killed and started again at any point. A page is read and committed as one action:
nothing that the others write in between is read by it.
-/

namespace NpmFollower.Follower

open PostgresDb DiffLogBuilder RelationalDbBuilder ChangesFetcher

/-- The rows of `diff_log` have ids from a sequence that is at `lastId`. -/
structure Services (C : LruCaches) where
  fetcher : FetcherWorld
  logState : BuilderState Unit DiffLogDb Change
  diffLog : List DiffLogEntry
  lastId : ℤ
  tablesState : BuilderState (RelationalDbAccessor C) Db DiffLogEntry

inductive ProcessAction where
  | start
  | batch (commit : Option DieselError)
  | kill

def ProcessAction.toBuilder : ProcessAction → BuilderAction
  | .start => .start
  | .batch commit => .batch commit
  | .kill => .kill

inductive ServicesAction where
  | fetcher (a : FetcherAction)
  /-- The sequence of ids keeps what transactions that were rolled back have taken of it. -/
  | diffLogBuilder (a : ProcessAction) (skipped : ℕ)
  | relationalDbBuilder (a : ProcessAction)

namespace Services

variable {C : LruCaches}

def initial : Services C :=
  ⟨.initial, Builder.initial 0 ⟨⟨∅, []⟩, none, []⟩, [], 0, Builder.initial 0 ⟨.empty, none, []⟩⟩

/-- The new rows of the diff log get their ids. -/
def logged (w : Services C) (skipped : ℕ) (b : BuilderState Unit DiffLogDb Change) : Services C :=
  let new := b.db.tables.diffLog.drop w.logState.db.tables.diffLog.length
  { w with
    logState := b
    diffLog := w.diffLog ++ numbered (w.lastId + skipped) new
    lastId := w.lastId + skipped + new.length
    tablesState := w.tablesState.arrive b.db.position }

variable (S : SerdeJson) (env : DiffLogBuilder.Env) (E : RelationalDbBuilder.Env)
  (est : ℕ → ℕ → ℤ)

def step (w : Services C) : ServicesAction → Option (Services C)
  | .fetcher a => (w.fetcher.step S a).map fun fetcher =>
    { w with fetcher, logState := w.logState.arrive fetcher.latest }
  | .diffLogBuilder a skipped =>
    ((diffLogBuilder env).step w.fetcher.changeLog w.logState a.toBuilder).map (w.logged skipped)
  | .relationalDbBuilder a =>
    ((relationalDbBuilder E C est).step w.diffLog w.tablesState a.toBuilder).map fun b =>
      { w with tablesState := b }

/-- No COMMIT of a builder is lost. -/
def KeepsCommits (w : Services C) : ServicesAction → Prop
  | .fetcher _ => True
  | .diffLogBuilder a _ =>
    ¬ (diffLogBuilder env).LosesCommit w.fetcher.changeLog w.logState a.toBuilder
  | .relationalDbBuilder a =>
    ¬ (relationalDbBuilder E C est).LosesCommit w.diffLog w.tablesState a.toBuilder

end Services

/-- The tables are those of calls on batches that make up the changes. -/
def LogOf (env : DiffLogBuilder.Env) (db : DiffLogDb) (changes : List Change) : Prop :=
  ∃ batches, batches.flatten = changes ∧ runChangeBatches env ⟨∅, []⟩ batches = some db

/-- The tables and the caches are those of a replay of the entries. -/
def TablesOf {C : LruCaches} (E : RelationalDbBuilder.Env) (accessor : RelationalDbAccessor C)
    (db : Db) (entries : List DiffLogEntry) : Prop :=
  Replay E entries ⟨accessor, db⟩

theorem runChangeBatches_concat {env : DiffLogBuilder.Env} {db db' : DiffLogDb}
    {batches : List (List Change)} {batch : List Change} :
    runChangeBatches env db (batches ++ [batch]) = some db' ↔
      ∃ db₁ metrics, runChangeBatches env db batches = some db₁ ∧
        processChanges env db₁ batch = some (.ok (db', metrics)) := by
  induction batches generalizing db with
  | nil =>
    rw [List.nil_append]
    simp only [runChangeBatches]
    split
    · next db₁ metrics hcall => simp [hcall]
    · next hno =>
      constructor
      · rintro ⟨⟩
      · rintro ⟨db₁, metrics, ⟨⟩, hcall⟩
        exact absurd hcall (hno _ _)
  | cons first batches ih =>
    rw [List.cons_append]
    simp only [runChangeBatches]
    split
    · exact ih
    · simp

section Builders

theorem logOf_accounts (env : DiffLogBuilder.Env) :
    (diffLogBuilder env).Accounts fun _ => LogOf env := by
  constructor
  · exact fun h => h
  · rintro processor db changes processor' db' entries ⟨batches, rfl, hrun⟩ hpage
    refine ⟨batches ++ [entries], by simp, ?_⟩
    rw [runChangeBatches_concat]
    simp only [diffLogBuilder] at hpage
    split at hpage
    · next db₁ metrics hcall =>
      cases hpage
      exact ⟨db, metrics, hrun, hcall⟩
    · cases hpage

theorem tablesOf_accounts {C : LruCaches} (E : RelationalDbBuilder.Env) (est : ℕ → ℕ → ℤ) :
    (relationalDbBuilder E C est).Accounts (TablesOf E) := by
  constructor
  · exact fun h => h.restart
  · intro accessor db rows accessor' db' entries h hpage
    simp only [relationalDbBuilder] at hpage
    split at hpage
    · next w hcall =>
      cases hpage
      rw [processAndFlush, Hoare.bind_apply] at hcall
      cases hprocess : processEntries E entries ⟨accessor, db⟩ with
      | error e =>
        rw [hprocess] at hcall
        cases hcall
      | ok r =>
        obtain ⟨⟨⟩, w₁⟩ := r
        rw [hprocess] at hcall
        exact (Replay.of_processEntries h hprocess).flush hcall
    · cases hpage

/-- The first rows of an ordered table are those up to the last of them. -/
theorem take_eq_filter {l : List Change} (hl : l.Pairwise fun c c' => c.seq < c'.seq) {n : ℕ}
    {last : Change} (hlast : (l.take n).getLast? = some last) :
    l.take n = l.filter fun c => c.seq ≤ last.seq := by
  have hsplit := List.take_append_drop n l
  have hmem := List.mem_of_getLast? hlast
  rw [← hsplit, List.pairwise_append] at hl
  obtain ⟨htake, -, hcross⟩ := hl
  have hsorted : Paging.Sorted Change.seq (l.take n) := htake.imp le_of_lt
  conv_rhs => rw [← hsplit, List.filter_append]
  have hall : (l.take n).filter (fun c => c.seq ≤ last.seq) = l.take n := by
    rw [List.filter_eq_self]
    exact fun c hc => decide_eq_true (hsorted.le_getLast hlast c hc)
  have hnone : (l.drop n).filter (fun c => c.seq ≤ last.seq) = [] := by
    rw [List.filter_eq_nil_iff]
    intro c hc
    simpa using hcross last hmem c hc
  rw [hall, hnone, List.append_nil]

theorem diffLogBuilder_query (env : DiffLogBuilder.Env) {changeLog : List Change}
    (hlog : changeLog.Pairwise fun c c' => c.seq < c'.seq) (after limit : ℤ) :
    (diffLogBuilder env).query changeLog after limit =
      (Paging.rest Change.seq changeLog after).take limit.toNat := by
  have hrest : (changeLog.filter fun c => after < c.seq).Pairwise SeqLe :=
    (hlog.imp le_of_lt : List.Pairwise SeqLe _).filter _
  exact congrArg (List.take _) hrest.insertionSort_eq

theorem diffLogBuilder_readsTable (env : DiffLogBuilder.Env) {changeLog : List Change}
    (hlog : changeLog.Pairwise fun c c' => c.seq < c'.seq) :
    (diffLogBuilder env).ReadsTable changeLog := by
  constructor
  · exact hlog.imp le_of_lt
  · intro after limit last hlast
    obtain ⟨hmem, hafter⟩ := mem_queryChangesAfterSeq (List.mem_of_getLast? hlast)
    rw [diffLogBuilder_query env hlog] at hlast ⊢
    exact ⟨hafter, hmem, take_eq_filter (hlog.filter _) hlast⟩

theorem diffLogBuilder_readsAll (env : DiffLogBuilder.Env) {changeLog : List Change}
    (hlog : changeLog.Pairwise fun c c' => c.seq < c'.seq) :
    (diffLogBuilder env).ReadsAll changeLog := by
  constructor
  · intro pages after hnil
    rw [diffLogBuilder_query env hlog, List.take_eq_nil_iff] at hnil
    rcases hnil with hzero | hrest
    · simp [diffLogBuilder, PAGE_SIZE] at hzero
    · exact hrest
  · intro pages after hlast
    rw [diffLogBuilder_query env hlog] at hlast ⊢
    have hsize : (diffLogBuilder env).pageSize pages = 1024 := rfl
    rw [hsize] at hlast ⊢
    simp only [diffLogBuilder, decide_eq_true_iff, List.length_take, PAGE_SIZE] at hlast
    apply List.take_of_length_le
    omega

theorem coMonotone_of_inIdOrder {diffLog : List DiffLogEntry} (h : InIdOrder diffLog) :
    CoMonotone diffLog := by
  constructor
  · exact List.pairwise_map.mpr (h.imp fun hab => hab.1.ne)
  · intro e he e' he' hlt
    induction h with
    | nil => cases he
    | cons hfirst _ ih =>
      rcases List.mem_cons.mp he with rfl | hmem
      · rcases List.mem_cons.mp he' with rfl | hmem'
        · exact absurd hlt (lt_irrefl _)
        · exact (hfirst e' hmem').2
      · rcases List.mem_cons.mp he' with rfl | hmem'
        · exact absurd hlt (hfirst e hmem).1.not_gt
        · exact ih hmem hmem'

theorem relationalDbBuilder_readsTable {C : LruCaches} (E : RelationalDbBuilder.Env)
    (est : ℕ → ℕ → ℤ) {diffLog : List DiffLogEntry} (hlog : InIdOrder diffLog) :
    (relationalDbBuilder E C est).ReadsTable diffLog := by
  constructor
  · exact hlog.imp And.right
  · intro after limit last hlast
    have hco := coMonotone_of_inIdOrder hlog
    have hrest : entriesAfter diffLog after = Paging.rest DiffLogEntry.seq diffLog after := by
      have hids : (diffLog.filter fun e => after < e.seq).Pairwise IdLe :=
        (hlog.imp fun hab => hab.1.le).filter _
      rw [entriesAfter, hids.insertionSort_eq, Paging.rest]
    have hquery : (relationalDbBuilder E C est).query diffLog after limit =
        Paging.page DiffLogEntry.seq (Paging.rest DiffLogEntry.seq diffLog after) limit.toNat := by
      rw [← hrest, ← query_eq_page hco]
      rfl
    rw [hquery] at hlast ⊢
    have hmem := List.mem_of_mem_filter (List.mem_of_getLast? hlast)
    have hsorted : Paging.Sorted DiffLogEntry.seq (Paging.rest DiffLogEntry.seq diffLog after) :=
      (hlog.imp And.right).filter _
    refine ⟨of_decide_eq_true (List.mem_filter.mp hmem).2, List.mem_of_mem_filter hmem, ?_⟩
    exact Paging.page_eq_filter hsorted hlast

end Builders

end NpmFollower.Follower
