import NpmFollower.Follower.FollowedLog

/-! # What the services make of the registry

In every state that the services can reach, the diff log is that of the changes up
to a position and the relational tables are those of the diff log up to another one,
wherever processes were killed and whatever ran in between.
-/

namespace NpmFollower.Follower.Services

open PostgresDb DiffLogBuilder RelationalDbBuilder ChangesFetcher

variable {C : LruCaches} {S : SerdeJson} {env : DiffLogBuilder.Env} {E : RelationalDbBuilder.Env}
  {est : ℕ → ℕ → ℤ} {w w' : Services C}

/-- The invariant of the services. -/
structure Followed (S : SerdeJson) (env : DiffLogBuilder.Env) (E : RelationalDbBuilder.Env)
    (est : ℕ → ℕ → ℤ) (w : Services C) : Prop where
  fetched : w.fetcher.Fetched S
  log : (diffLogBuilder env).Exact (fun _ => LogOf env) w.fetcher.changeLog w.logState
  logShown : w.logState.shown = w.fetcher.latest
  rows : w.diffLog.map withoutId = w.logState.db.tables.diffLog
  ids : ∀ e ∈ w.diffLog, e.id ≤ w.lastId
  seqs : ∀ e ∈ w.diffLog, ∃ c ∈ w.fetcher.changeLog, e.seq = c.seq
  ordered : InIdOrder w.diffLog
  patched : PatchesCreations w.diffLog
  tables : (relationalDbBuilder E C est).Exact (TablesOf E) w.diffLog w.tablesState
  tablesShown : w.tablesState.shown = w.logState.db.position

theorem patchesCreations_nil : PatchesCreations [] := by
  rintro e after ⟨before, hsplit⟩
  simp at hsplit

theorem followed_initial (S : SerdeJson) (env : DiffLogBuilder.Env) (E : RelationalDbBuilder.Env)
    (est : ℕ → ℕ → ℤ) : Followed S env E est (initial : Services C) where
  fetched := FetcherWorld.fetched_initial S
  log := Builder.exact_initial ⟨[], rfl, rfl⟩
  logShown := rfl
  rows := rfl
  ids := List.forall_mem_nil _
  seqs := List.forall_mem_nil _
  ordered := .nil
  patched := patchesCreations_nil
  tables := Builder.exact_initial .start
  tablesShown := rfl

theorem toBuilder_ne_arrive (a : ProcessAction) (upTo : ℤ) : a.toBuilder ≠ .arrive upTo := by
  cases a <;> nofun

theorem max_of_eq_of_le {a b c : ℤ} (h : a = b) (hle : b ≤ c) : max a c = c := by
  rw [h, max_eq_right hle]

section Log

variable (h : Followed S env E est w) {a : ProcessAction} {b : BuilderState Unit DiffLogDb Change}
  (hb : (diffLogBuilder env).step w.fetcher.changeLog w.logState a.toBuilder = some b)

include h hb

/-- What a step of the first builder adds to the diff log. -/
theorem Followed.exists_new : ∃ es, b.db.tables.diffLog = w.logState.db.tables.diffLog ++ es ∧
    b.shown = w.logState.shown ∧ w.logState.db.position ≤ b.db.position ∧
    (∀ e ∈ es, w.logState.db.position < e.seq ∧ e.seq ≤ b.db.position) ∧
    BatchRows w.fetcher.changeLog es := by
  have hreads := diffLogBuilder_readsTable env h.fetched.ordered
  obtain ⟨hshown, hdb | ⟨processor, entries, last, r, hentries, hlast, -, hprocess, hdb⟩⟩ :=
    h.log.step_db hreads (toBuilder_ne_arrive a) hb
  · have hposition : b.db.position = w.logState.db.position := congrArg BuilderDb.position hdb
    refine ⟨[], ?_, hshown, hposition.ge, List.forall_mem_nil _, List.forall_mem_nil _, .nil,
      fun l hl => ?_⟩
    · rw [hdb, List.append_nil]
    · rw [List.map_eq_nil_iff.mp hl]
      exact patchesCreations_nil
  · have hmem {c : Change} (hc : c ∈ entries) : c ∈ w.fetcher.changeLog ∧
        w.logState.db.position < c.seq ∧ c.seq ≤ last.seq := by
      rw [hentries] at hc
      obtain ⟨hrest, hle⟩ := List.mem_filter.mp hc
      obtain ⟨hlog, hlt⟩ := List.mem_filter.mp hrest
      exact ⟨hlog, of_decide_eq_true hlt, of_decide_eq_true hle⟩
    have hposition : b.db.position = last.seq := by
      rw [hdb]
      rfl
    have hbatch : entries.Pairwise fun c c' => c.seq < c'.seq := by
      rw [hentries]
      exact (h.fetched.ordered.filter _).filter _
    simp only [diffLogBuilder] at hprocess
    split at hprocess
    · next db' metrics hcall =>
      cases hprocess
      obtain ⟨es, hes, hrows⟩ := batchRows_processChanges hbatch hcall
      refine ⟨es, by rw [hdb, hes], hshown, ?_, fun e he => ?_, ?_, hrows.ordered, hrows.patched⟩
      · rw [hposition]
        exact (hmem (List.mem_of_getLast? hlast)).2.1.le
      · obtain ⟨c, hc, hseq⟩ := hrows.seqs e he
        rw [hseq, hposition]
        exact (hmem hc).2
      · intro e he
        obtain ⟨c, hc, hseq⟩ := hrows.seqs e he
        exact ⟨c, (hmem hc).1, hseq⟩
    · cases hprocess

theorem Followed.logged
    (hkept : ¬ (diffLogBuilder env).LosesCommit w.fetcher.changeLog w.logState a.toBuilder)
    (skipped : ℕ) : Followed S env E est (w.logged skipped b) := by
  have hreads := diffLogBuilder_readsTable env h.fetched.ordered
  obtain ⟨es, hes, hshown, hle, hseqs, hrows⟩ := h.exists_new hb
  have hnew : b.db.tables.diffLog.drop w.logState.db.tables.diffLog.length = es := by
    rw [hes, List.drop_left]
  have hseq {e : DiffLogEntry} (he : e ∈ numbered (w.lastId + skipped) es) : withoutId e ∈ es := by
    rw [← map_withoutId_numbered (w.lastId + skipped) es]
    exact List.mem_map_of_mem he
  have holdSeq {e : DiffLogEntry} (he : e ∈ w.diffLog) : e.seq ≤ w.logState.db.position := by
    rw [← h.tablesShown]
    exact h.tables.visible e he
  rw [Services.logged, hnew]
  refine ⟨h.fetched, h.log.step (logOf_accounts env) hreads hkept (toBuilder_ne_arrive a) hb, ?_, ?_,
    ?_, ?_, ?_, ?_, ?_, ?_⟩
  · exact hshown.trans h.logShown
  · rw [List.map_append, map_withoutId_numbered, h.rows, hes]
  · intro e he
    rcases List.mem_append.mp he with hold | he
    · have hid := h.ids e hold
      dsimp only
      omega
    · exact (id_of_mem_numbered he).2
  · intro e he
    rcases List.mem_append.mp he with hold | he
    · exact h.seqs e hold
    · exact hrows.seqs _ (hseq he)
  · refine List.pairwise_append.mpr ⟨h.ordered, inIdOrder_numbered hrows.ordered, ?_⟩
    intro e he e' he'
    have hid := h.ids e he
    have hid' := (id_of_mem_numbered he').1
    have hlt := (hseqs _ (hseq he')).1
    exact ⟨by omega, (holdSeq he).trans hlt.le⟩
  · refine patchesCreations_append h.patched (hrows.patched _ (map_withoutId_numbered _ _)) ?_
    intro e he e' he'
    have hlt := (hseqs _ (hseq he')).1
    exact ((holdSeq he).trans_lt hlt).ne
  · apply h.tables.arrive
    intro e he
    rw [h.tablesShown]
    exact hseqs _ (hseq he)
  · exact max_of_eq_of_le h.tablesShown hle

end Log

theorem Followed.fetch (h : Followed S env E est w) {a : FetcherAction} {fetcher : FetcherWorld}
    (hstep : w.fetcher.step S a = some fetcher) : Followed S env E est
      { w with fetcher, logState := w.logState.arrive fetcher.latest } := by
  obtain ⟨new, hnew, hle, hseqs⟩ := h.fetched.step_changeLog hstep
  refine ⟨h.fetched.step hstep, ?_, max_of_eq_of_le h.logShown hle, h.rows, h.ids, ?_, h.ordered,
    h.patched, h.tables, h.tablesShown⟩
  · dsimp only
    rw [hnew]
    apply h.log.arrive
    intro c hc
    rw [h.logShown]
    exact hseqs c hc
  · intro e he
    obtain ⟨c, hc, hseq⟩ := h.seqs e he
    exact ⟨c, by rw [hnew]; exact List.mem_append_left _ hc, hseq⟩

theorem Followed.step (h : Followed S env E est w) {a : ServicesAction}
    (hkept : KeepsCommits env E est w a) (hstep : w.step S env E est a = some w') :
    Followed S env E est w' := by
  cases a with
  | fetcher a =>
    obtain ⟨fetcher, hfetcher, rfl⟩ := Option.map_eq_some_iff.mp hstep
    exact h.fetch hfetcher
  | diffLogBuilder a skipped =>
    obtain ⟨b, hb, rfl⟩ := Option.map_eq_some_iff.mp hstep
    exact h.logged hb hkept skipped
  | relationalDbBuilder a =>
    obtain ⟨b, hb, rfl⟩ := Option.map_eq_some_iff.mp hstep
    have hreads := relationalDbBuilder_readsTable (C := C) E est h.ordered
    obtain ⟨hshown, -⟩ := h.tables.step_db hreads (toBuilder_ne_arrive a) hb
    exact ⟨h.fetched, h.log, h.logShown, h.rows, h.ids, h.seqs, h.ordered, h.patched,
      h.tables.step (tablesOf_accounts E est) hreads hkept (toBuilder_ne_arrive a) hb,
      hshown.trans h.tablesShown⟩

theorem followed_of_reach
    (h : Runs.Reach (step S env E est) (KeepsCommits env E est) initial w) :
    Followed S env E est w :=
  h.invariant (followed_initial S env E est) fun hinv hkept hstep => hinv.step hkept hstep

/-- The changes that the diff log is made of. -/
def processedChanges (w : Services C) : List Change :=
  w.fetcher.changeLog.filter fun c => c.seq ≤ w.logState.db.position

/-- The entries that the relational tables are made of. -/
def processedEntries (w : Services C) : List DiffLogEntry :=
  w.diffLog.filter fun e => e.seq ≤ w.tablesState.db.position

theorem Followed.log_grows (h : Followed S env E est w)
    (hrun : Runs.Reach (Services.step S env E est) (KeepsCommits env E est) w w') :
    w.diffLog <+: w'.diffLog ∧ w.logState.db.position ≤ w'.logState.db.position := by
  have hinv := hrun.invariant (I := fun w' => Followed S env E est w' ∧ w.diffLog <+: w'.diffLog ∧
      w.logState.db.position ≤ w'.logState.db.position)
    ⟨h, List.prefix_rfl, le_rfl⟩ fun {w₁ a w₂} hinv hkept hstep => ?_
  · exact hinv.2
  · obtain ⟨hfollowed, hgrown, hle⟩ := hinv
    refine ⟨hfollowed.step hkept hstep, ?_⟩
    cases a with
    | fetcher a =>
      obtain ⟨fetcher, -, rfl⟩ := Option.map_eq_some_iff.mp hstep
      exact ⟨hgrown, hle⟩
    | diffLogBuilder a skipped =>
      obtain ⟨b, hb, rfl⟩ := Option.map_eq_some_iff.mp hstep
      obtain ⟨-, -, -, hposition, -⟩ := hfollowed.exists_new hb
      exact ⟨hgrown.trans (List.prefix_append _ _), hle.trans hposition⟩
    | relationalDbBuilder a =>
      obtain ⟨b, -, rfl⟩ := Option.map_eq_some_iff.mp hstep
      exact ⟨hgrown, hle⟩

theorem steps_of_processEntries {entries : List DiffLogEntry} {t t' : World C}
    (hrun : processEntries E entries t = .ok ((), t')) :
    Relation.ReflTransGen (BuilderStep E) t t' := by
  induction entries generalizing t with
  | nil =>
    cases hrun
    exact .refl
  | cons e entries ih =>
    rw [processEntries_cons, Hoare.bind_apply] at hrun
    cases hstep : EntryProcessor.processEntry E e t with
    | error p =>
      rw [hstep] at hrun
      cases hrun
    | ok r =>
      obtain ⟨⟨⟩, t₁⟩ := r
      rw [hstep] at hrun
      exact .head (.entry e hstep) (ih hrun)

theorem Followed.tables_grow (hC : C.Lawful) (h : Followed S env E est w)
    (hrun : Runs.Reach (Services.step S env E est) (KeepsCommits env E est) w w') :
    HistoriesGrow w.tablesState.db.tables w'.tablesState.db.tables := by
  have hinv := hrun.invariant (I := fun w' => Followed S env E est w' ∧
      HistoriesGrow w.tablesState.db.tables w'.tablesState.db.tables)
    ⟨h, (sameRows_refl _).grows⟩ fun {w₁ a w₂} hinv hkept hstep => ?_
  · exact hinv.2
  · obtain ⟨hfollowed, hgrown⟩ := hinv
    refine ⟨hfollowed.step hkept hstep, ?_⟩
    cases a with
    | fetcher a =>
      obtain ⟨fetcher, -, rfl⟩ := Option.map_eq_some_iff.mp hstep
      exact hgrown
    | diffLogBuilder a skipped =>
      obtain ⟨b, -, rfl⟩ := Option.map_eq_some_iff.mp hstep
      exact hgrown
    | relationalDbBuilder a =>
      obtain ⟨b, hb, rfl⟩ := Option.map_eq_some_iff.mp hstep
      have hreads := relationalDbBuilder_readsTable (C := C) E est hfollowed.ordered
      obtain ⟨-, hdb | ⟨accessor, entries, last, r, -, -, hreplay, hprocess, hdb⟩⟩ :=
        hfollowed.tables.step_db hreads (toBuilder_ne_arrive a) hb
      · dsimp only
        rwa [hdb]
      · simp only [relationalDbBuilder] at hprocess
        split at hprocess
        · next t hcall =>
          cases hprocess
          rw [processAndFlush, Hoare.bind_apply] at hcall
          cases hentries : processEntries E entries ⟨accessor, w₁.tablesState.db.tables⟩ with
          | error e =>
            rw [hentries] at hcall
            cases hcall
          | ok r =>
            obtain ⟨⟨⟩, t₁⟩ := r
            rw [hentries] at hcall
            have hsteps := (steps_of_processEntries hentries).tail (.flush hcall)
            have hnext := (Replay.grows hC hreplay hsteps).2
            dsimp only
            rw [hdb]
            exact hgrown.trans hnext
        · cases hprocess

/-- Where no name waits for its patch, every row refers to the package of its name. -/
theorem targetsResolved_of_targets {waiting : String → Prop} {t : World C} (hinv : RowsInv t)
    (htargets : Targets E.digests waiting t.conn) (hno : ∀ name, ¬waiting name) :
    TargetsResolved t.conn := by
  intro d hd i
  have htarget : d.dstPackageIdIfExists = packageIdOf t.conn d.dstPackageName := by
    rcases (htargets.rows d hd).target with htarget | ⟨-, hwaits⟩
    · exact htarget
    · exact absurd hwaits (hno _)
  rw [htarget]
  constructor
  · exact exists_package_of_packageIdOf
  · rintro ⟨p, hp, hname, rfl⟩
    rw [packageIdOf, ← hname, Rows.find_of_mem hinv.constraints.names hp, Option.map_some]

/-- Steps of the first builder leave the registry and the change log as they are. -/
theorem perform_diffLogBuilder {as : List ProcessAction} {b : BuilderState Unit DiffLogDb Change}
    (hrun : Runs.perform ((diffLogBuilder env).step w.fetcher.changeLog) w.logState
      (as.map ProcessAction.toBuilder) = some b) :
    ∃ w', Runs.perform (step S env E est) w (as.map fun a => .diffLogBuilder a 0) = some w' ∧
      w'.logState = b ∧ w'.fetcher = w.fetcher := by
  induction as generalizing w with
  | nil =>
    cases hrun
    exact ⟨w, rfl, rfl, rfl⟩
  | cons a as ih =>
    rw [List.map_cons, Runs.perform, List.foldlM_cons] at hrun
    obtain ⟨b₁, hb₁, hrest⟩ := Option.bind_eq_some_iff.mp hrun
    obtain ⟨w', hw', hlog, hfetcher⟩ := ih (w := w.logged 0 b₁) hrest
    refine ⟨w', ?_, hlog, hfetcher⟩
    rw [List.map_cons, Runs.perform, List.foldlM_cons, step, hb₁]
    exact hw'

/-- Reads the texts of the given values only. -/
def sampleSerde (values : List Value) : SerdeJson where
  numberText _ := ['0']
  fromStr text := values.find? fun v => v.write (fun _ => ['0']) escapeChar = text
  numberText_plain := stringsOnly.numberText_plain

def samplePackument (versions : List (String × String)) : Value := (sampleChange 0 [] versions).rawJson

def sampleEvent (seq : ℕ) (versions : List (String × String)) : ChangeEvent :=
  ⟨"p", .number (.posInt seq), samplePackument versions⟩

/-- A version is created and deleted again, and every service is killed in between. -/
def sampleActions : List ServicesAction :=
  [.fetcher (.publish (sampleEvent 1 [("1.0.0", "a")])), .fetcher .listen, .fetcher .receive,
    .diffLogBuilder .start 0, .diffLogBuilder (.batch none) 2, .relationalDbBuilder .start,
    .diffLogBuilder .kill 0, .fetcher .hangUp, .fetcher (.publish (sampleEvent 5 [])),
    .fetcher .listen, .relationalDbBuilder (.batch none), .fetcher .receive,
    .relationalDbBuilder .kill, .diffLogBuilder .start 0, .diffLogBuilder (.batch none) 0,
    .relationalDbBuilder .start, .relationalDbBuilder (.batch none)]

abbrev sampleStep : Services C → ServicesAction → Option (Services C) :=
  step (sampleSerde [samplePackument [("1.0.0", "a")], samplePackument []])
    DiffLogBuilder.sampleEnv RelationalDbBuilder.sampleEnv fun _ _ => 0

/-- No COMMIT fails in this action. -/
def commits : ServicesAction → Bool
  | .diffLogBuilder (.batch (some _)) _ => false
  | .relationalDbBuilder (.batch (some _)) => false
  | _ => true

theorem keepsCommits_of_commits {a : ServicesAction} (ha : commits a = true) (w : Services C) :
    KeepsCommits env E est w a := by
  cases a with
  | fetcher a => trivial
  | diffLogBuilder a skipped =>
    rintro ⟨e, p, last, heq, -⟩
    cases a <;> cases heq
    cases ha
  | relationalDbBuilder a =>
    rintro ⟨e, p, last, heq, -⟩
    cases a <;> cases heq
    cases ha

/-- The ids of the diff log, the seqs that it is made of, and the entries in the histories. -/
def sampleOutcome (w : Services C) : List ℤ × List ℤ × List (List ℤ) :=
  (w.diffLog.map (·.id), w.processedChanges.map Change.seq,
    w.tablesState.db.tables.versions.rows.map fun v => v.versionStateHistory.map (·.diffEntryId))

theorem reach_of_sampleRun {as : List ServicesAction} {w : Services (.ofCapacity 1)}
    (hcommits : ∀ a ∈ as, commits a = true) (h : Runs.perform sampleStep initial as = some w) :
    Runs.Reach sampleStep (KeepsCommits DiffLogBuilder.sampleEnv RelationalDbBuilder.sampleEnv
      fun _ _ => 0) initial w :=
  Runs.reach_of_perform (fun a ha s => keepsCommits_of_commits (hcommits a ha) s) h

theorem exists_sampleRun : ∃ w : Services (.ofCapacity 1),
    Runs.Reach sampleStep (KeepsCommits DiffLogBuilder.sampleEnv RelationalDbBuilder.sampleEnv
      fun _ _ => 0) initial w ∧
    sampleOutcome w = ([3, 4, 5, 6, 7], [1, 5], [[4, 7]]) := by
  have hsome : (Runs.perform sampleStep (initial : Services (.ofCapacity 1)) sampleActions).map
      sampleOutcome = some ([3, 4, 5, 6, 7], [1, 5], [[4, 7]]) := by
    decide +kernel
  obtain ⟨w, hw, heq⟩ := Option.map_eq_some_iff.mp hsome
  exact ⟨w, reach_of_sampleRun (by decide) hw, heq⟩

/-- The diff log is made of the changes up to the persisted position, each of them once and in the
order of the registry, among them every current change up to there; rows are only appended. -/
theorem diffLog_exact (h : Runs.Reach (step S env E est) (KeepsCommits env E est) initial w) :
    LogOf env w.logState.db.tables w.processedChanges ∧
    (w.processedChanges.map Change.seq).Pairwise (· < ·) ∧
    (∀ e, Current w.fetcher.published e → e.seqNum ≤ w.logState.db.position →
      ∃ c ∈ w.processedChanges, e.stored S = some c) ∧
    w.diffLog.map withoutId = w.logState.db.tables.diffLog ∧ InIdOrder w.diffLog ∧
    (∀ e ∈ w.diffLog, ∃ c ∈ w.processedChanges, e.seq = c.seq) ∧
    ∀ w', Runs.Reach (step S env E est) (KeepsCommits env E est) w w' →
      w.diffLog <+: w'.diffLog ∧ w.logState.db.position ≤ w'.logState.db.position := by
  have hfollowed := followed_of_reach h
  refine ⟨?_, ?_, fun e hcurrent hle => ?_, hfollowed.rows, hfollowed.ordered, fun e he => ?_,
    fun w' hrun => hfollowed.log_grows hrun⟩
  · have hprocessed : w.logState.db.processed = w.processedChanges := hfollowed.log.processed
    rw [← hprocessed]
    exact hfollowed.log.persisted
  · exact List.pairwise_map.mpr (hfollowed.fetched.ordered.filter _)
  · have hlatest : w.logState.db.position ≤ w.fetcher.latest :=
      hfollowed.logShown ▸ hfollowed.log.behind
    obtain ⟨c, hc, hstored⟩ := hfollowed.fetched.passed e hcurrent (hle.trans hlatest)
    refine ⟨c, List.mem_filter.mpr ⟨hc, decide_eq_true ?_⟩, hstored⟩
    rwa [ChangeEvent.seq_of_stored hstored]
  · obtain ⟨c, hc, hseq⟩ := hfollowed.seqs e he
    refine ⟨c, List.mem_filter.mpr ⟨hc, decide_eq_true ?_⟩, hseq⟩
    rw [← hseq, ← hfollowed.tablesShown]
    exact hfollowed.tables.visible e he

theorem diffLog_exact_killed : ∃ w : Services (.ofCapacity 1),
    LogOf DiffLogBuilder.sampleEnv w.logState.db.tables w.processedChanges ∧
      sampleOutcome w = ([3, 4, 5, 6, 7], [1, 5], [[4, 7]]) := by
  obtain ⟨w, hreach, hw⟩ := exists_sampleRun
  exact ⟨w, (diffLog_exact hreach).1, hw⟩

/-- The relational tables, and what a running builder has in its caches, are a replay of the diff
log up to the persisted position. Whatever happens, the rows pass their checks, their histories are
in the order of the log and are only continued, and every dependency refers to its package. -/
theorem tables_exact (hC : C.Lawful)
    (h : Runs.Reach (step S env E est) (KeepsCommits env E est) initial w) :
    TablesOf E (.new : RelationalDbAccessor C) w.tablesState.db.tables w.processedEntries ∧
    (∀ p ∈ w.tablesState.process, TablesOf E p.processor w.tablesState.db.tables w.processedEntries) ∧
    w.tablesState.db.position ≤ w.logState.db.position ∧
    HistoriesRight w.tablesState.db.tables ∧ TargetsResolved w.tablesState.db.tables ∧
    (∀ e, ChecksPass E (uncached C w.tablesState.db.tables) e) ∧
    ∀ w', Runs.Reach (step S env E est) (KeepsCommits env E est) w w' →
      HistoriesGrow w.tablesState.db.tables w'.tablesState.db.tables := by
  have hfollowed := followed_of_reach h
  have hprocessed : w.tablesState.db.processed = w.processedEntries := hfollowed.tables.processed
  have hreplay : Replay E w.processedEntries (uncached C w.tablesState.db.tables) := by
    rw [← hprocessed]
    exact hfollowed.tables.persisted
  obtain ⟨hinv, hkept⟩ := hreplay.rowsKept hC
  obtain ⟨-, htargets⟩ := hreplay.rowsInv_targets hC
  refine ⟨hreplay, ?_, ?_, ?_, ?_, ?_, fun w' hrun => hfollowed.tables_grow hC hrun⟩
  · rw [← hprocessed]
    exact hfollowed.tables.running
  · exact hfollowed.tablesShown ▸ hfollowed.tables.behind
  · exact hkept.historiesRight (hfollowed.ordered.filter _)
  · have hsplit : w.processedEntries ++
        Paging.rest DiffLogEntry.seq w.diffLog w.tablesState.db.position = w.diffLog :=
      Paging.Sorted.filter_append (hfollowed.ordered.imp And.right) _
    refine targetsResolved_of_targets (E := E) hinv htargets (not_waitingIn (hsplit ▸ hfollowed.patched) ?_)
    intro e he e' he'
    have hle : e.seq ≤ w.tablesState.db.position := of_decide_eq_true (List.mem_filter.mp he).2
    have hlt : w.tablesState.db.position < e'.seq := of_decide_eq_true (List.mem_filter.mp he').2
    omega
  · exact hkept.checksPass hC E hinv

theorem tables_exact_killed : ∃ w : Services (.ofCapacity 1),
    HistoriesRight w.tablesState.db.tables ∧ TargetsResolved w.tablesState.db.tables ∧
      sampleOutcome w = ([3, 4, 5, 6, 7], [1, 5], [[4, 7]]) := by
  obtain ⟨w, hreach, hw⟩ := exists_sampleRun
  obtain ⟨-, -, -, hhistories, htargets, -⟩ := tables_exact (LruCaches.ofCapacity_lawful 1) hreach
  exact ⟨w, hhistories, htargets, hw⟩

end NpmFollower.Follower.Services
