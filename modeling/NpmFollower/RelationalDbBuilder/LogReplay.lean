import NpmFollower.DiffLogBuilder.BatchSplit
import NpmFollower.DiffLogBuilder.WellFormedLog
import NpmFollower.RelationalDbBuilder.LiveCounters

/-! # Replaying a well-formed log

A consumer that reads the well-formed logs of all packages has a row for every
package that an entry names before the entry, and for every version that the log
has created. So no entry of it meets a missing row.
-/

namespace NpmFollower.RelationalDbBuilder

open Std PostgresDb DiffLogBuilder RelationalDbAccessor EntryProcessor

variable {C : LruCaches} (E : Env)

/-- The row of the diff log without its id. -/
def withoutId (e : DiffLogEntry) : NewDiffLogEntry := ⟨e.seq, e.packageName, e.instr⟩

/-- The instructions of one package among the rows. -/
def logOf (name : String) (entries : List DiffLogEntry) : List DiffLogInstruction :=
  (entries.filter fun e => e.packageName = name).map (·.instr)

/-- The log of each package begins with its creation, and its entries are ordered. -/
def WellFormedEntries (entries : List DiffLogEntry) : Prop :=
  ∀ name, KeyedLog.Ordered Admitted (logOf name entries) ∧
    ∀ instr ∈ (logOf name entries).head?, ∃ data, instr = .createPackage data

/-- What the rows that have been read have left. -/
structure LogRead (done : List DiffLogEntry) (w : World C) : Prop where
  inv : w.Inv
  packages : ∀ name, logOf name done ≠ [] → HasPackage w.conn name
  versions : ∀ name v, CreatedIn v (logOf name done) → HasVersion w.conn name v

theorem logOf_append (name : String) (entries entries' : List DiffLogEntry) :
    logOf name (entries ++ entries') = logOf name entries ++ logOf name entries' := by
  simp [logOf]

theorem logOf_singleton (name : String) (e : DiffLogEntry) :
    logOf name [e] = if e.packageName = name then [e.instr] else [] := by
  by_cases h : e.packageName = name <;> simp [logOf, h]

theorem Grows.hasPackage {w w' : World C} {name : String} (h : Grows w w')
    (hname : HasPackage w.conn name) : HasPackage w'.conn name := by
  obtain ⟨id, hid⟩ := Option.isSome_iff_exists.mp hname
  exact Option.isSome_of_eq_some (h.packages name id hid)

theorem Grows.hasVersion {w w' : World C} {name : String} {v : Semver} (h : Grows w w')
    (hv : HasVersion w.conn name v) : HasVersion w'.conn name v := by
  obtain ⟨id, hid, hsome⟩ := hv
  obtain ⟨versionId, hversion⟩ := Option.isSome_iff_exists.mp hsome
  exact ⟨id, h.packages name id hid, Option.isSome_of_eq_some (h.versions _ _ hversion)⟩

/-- An entry in its place finds the rows that it needs. -/
theorem LogRead.expected {done : List DiffLogEntry} {w : World C} {e : DiffLogEntry}
    (h : LogRead done w) (hadmitted : Admitted (logOf e.packageName done) e.instr)
    (hfirst : logOf e.packageName done = [] → ∃ data, e.instr = .createPackage data) :
    Expected w.conn e := by
  have hpackage (hinstr : ∀ data, e.instr ≠ .createPackage data) :
      HasPackage w.conn e.packageName := by
    refine h.packages _ fun hnil => ?_
    obtain ⟨data, hdata⟩ := hfirst hnil
    exact hinstr data hdata
  unfold Expected
  cases hinstr : e.instr with
  | createPackage data =>
    rw [hinstr] at hadmitted
    exact hadmitted.2
  | updatePackage data =>
    rw [hinstr] at hadmitted
    exact ⟨hpackage (by simp [hinstr]), fun l hl => h.versions _ _ (hadmitted l hl)⟩
  | patchPackageReferences => exact hpackage (by simp [hinstr])
  | createVersion v data => exact hpackage (by simp [hinstr])
  | updateVersion v data =>
    rw [hinstr] at hadmitted
    exact h.versions _ _ hadmitted
  | deleteVersion v =>
    rw [hinstr] at hadmitted
    exact h.versions _ _ hadmitted

theorem LogRead.snoc {done : List DiffLogEntry} {w w' : World C} {e : DiffLogEntry}
    {short : DependencyType → ℤ → ℤ} (h : LogRead done w)
    (hstep : Processed w e.packageName short w')
    (hcreated : ∀ v data, e.instr = .createVersion v data → HasVersion w'.conn e.packageName v) :
    LogRead (done ++ [e]) w' where
  inv := hstep.effect.inv
  packages name hname := by
    by_cases he : e.packageName = name
    · exact he ▸ hstep.package
    · rw [logOf_append, logOf_singleton, if_neg he, List.append_nil] at hname
      exact hstep.effect.grows.hasPackage (h.packages name hname)
  versions name v hv := by
    rw [logOf_append, createdIn_append, logOf_singleton] at hv
    rcases hv with hv | ⟨data, hdata⟩
    · exact hstep.effect.grows.hasVersion (h.versions name v hv)
    · split_ifs at hdata with he
      · exact he ▸ hcreated v data (List.mem_singleton.mp hdata).symm
      · cases hdata

section Replay

variable (hC : C.Lawful)

include hC

/-- One entry in its place meets no missing row. -/
theorem processEntry_logRead {done : List DiffLogEntry} {e : DiffLogEntry}
    (hadmitted : Admitted (logOf e.packageName done) e.instr)
    (hfirst : logOf e.packageName done = [] → ∃ data, e.instr = .createPackage data) :
    Hoare.Triple (LogRead (C := C) done) (processEntry E e) (fun _ => LogRead (done ++ [e]))
      fun p => p.isMissing = false := by
  intro w hw
  have hstep := processEntry_triple hC E hw.inv e w hw.inv.keeps
  cases hrun : processEntry E e w with
  | ok r =>
    rw [hrun] at hstep
    exact hw.snoc hstep.1 hstep.2
  | error p =>
    rw [hrun] at hstep
    have hmissing : ¬p.isMissing = true := fun h => hstep h (hw.expected hadmitted hfirst)
    simpa using hmissing

theorem processEntries_logRead {entries : List DiffLogEntry} (h : WellFormedEntries entries) :
    Hoare.Triple (LogRead (C := C) []) (processEntries E entries) (fun _ => LogRead entries)
      fun p => p.isMissing = false := by
  refine Hoare.Triple.forM entries LogRead fun done e rest hsplit => ?_
  have hlog : logOf e.packageName entries =
      logOf e.packageName done ++ e.instr :: logOf e.packageName rest := by
    rw [hsplit, ← List.singleton_append, logOf_append, logOf_append, logOf_singleton, if_pos rfl,
      List.singleton_append]
  obtain ⟨hordered, hhead⟩ := h e.packageName
  refine processEntry_logRead E hC (hordered _ _ _ hlog) fun hnil => ?_
  rw [hlog, hnil] at hhead
  exact hhead e.instr rfl

end Replay

section Call

variable {env : DiffLogBuilder.Env} {changes : List Change} {db' : DiffLogDb}
  {metrics : ProcessChangeSuccessMetrics} {entries : List DiffLogEntry}

/-- The instructions of one package among new rows. -/
def newLogOf (name : String) (entries : List NewDiffLogEntry) : List DiffLogInstruction :=
  (entries.filter fun e => e.packageName = name).map (·.instr)

theorem logOf_eq (name : String) (entries : List DiffLogEntry) :
    logOf name entries = newLogOf name (entries.map withoutId) := by
  rw [logOf, newLogOf, List.filter_map, List.map_map]
  rfl

/-- The rows that a call on empty tables has left, package by package. -/
theorem logOf_processChanges
    (hrun : processChanges env ⟨∅, []⟩ changes = some (.ok (db', metrics)))
    (hentries : entries.map withoutId = db'.diffLog) (name : String) :
    logOf name entries = packageLog env.hasher none (changesOf env changes name) := by
  cases hall : processAll env ∅ Progress.start changes with
  | error e => simp [processChanges, hall] at hrun
  | ok s =>
    obtain ⟨-, hfollows⟩ := follows_of_processAll hall
    simp only [processChanges, hall, Option.map_eq_some_iff, DiffLogDb.flush] at hrun
    obtain ⟨db, hflush, hdb⟩ := hrun
    obtain ⟨table, -, htable⟩ := Option.bind_eq_some_iff.mp hflush
    cases hdb
    cases htable
    rw [changesOf, ← hfollows.packageLog name, instrsOf]
    rw [logOf_eq, hentries, List.nil_append, newLogOf, List.filter_map, List.map_map]
    rfl

/-- The entries of each package are a well-formed log, and replaying them meets no missing row. -/
structure ReadableLog (C : LruCaches) (env : DiffLogBuilder.Env) (changes : List Change)
    (entries : List DiffLogEntry) : Prop where
  silent : ∀ name, changesOf env changes name = [] → logOf name entries = []
  wellFormed : ∀ name c cs, changesOf env changes name = c :: cs → ∃ rest,
    logOf name entries = c.instrs env.hasher none ++ rest ∧
      WellFormedLog (c.instrs env.hasher none) rest
  replays : ∀ (E : Env) (p : Panic),
    processEntries E entries (uncached C .empty) = .error p → p.isMissing = false

/-- What one call emits from empty tables is a log that its consumer can read. -/
theorem readableLog_processChanges (hC : C.Lawful)
    (hrun : processChanges env ⟨∅, []⟩ changes = some (.ok (db', metrics)))
    (hentries : entries.map withoutId = db'.diffLog) : ReadableLog C env changes entries := by
  have hlog := logOf_processChanges hrun hentries
  have hlisted (name : String) : ∀ c ∈ changesOf env changes name,
      LatestListed c.data c.versions := fun c hc =>
    latestListed_parsedChanges env changes c (List.mem_of_mem_filter hc)
  refine ⟨fun name hnil => ?_, fun name c cs hcs => ?_, fun E p hpanic => ?_⟩
  · rw [hlog, hnil]
    rfl
  · rw [hlog, hcs]
    exact ⟨_, rfl, wellFormedLog_packageLog (hcs ▸ hlisted name)⟩
  · have hwell : WellFormedEntries entries := fun name => by
      rw [hlog]
      refine ⟨ordered_packageLog _ (hlisted name), ?_⟩
      cases hcs : changesOf env changes name with
      | nil => rintro _ ⟨⟩
      | cons c cs =>
        rw [packageLog, c.instrs_none]
        rintro _ ⟨⟩
        exact ⟨_, rfl⟩
    have hstart : LogRead [] (uncached C .empty) := by
      refine ⟨uncached_inv hC, fun name h => absurd rfl h, ?_⟩
      rintro name v ⟨_, ⟨⟩⟩
    exact (processEntries_logRead E hC hwell).of_error hstart hpanic

/-- A package that is created with a latest version, and then changed. -/
def taggedChanges : List Change :=
  [sampleChange 1 [("latest", .string "1.0.0")] [("1.0.0", "a")], sampleChange 2 [] [("1.0.0", "b")]]

theorem readableLog_processChanges_tagged : ∃ db' metrics,
    processChanges DiffLogBuilder.sampleEnv ⟨∅, []⟩ taggedChanges = some (.ok (db', metrics)) ∧
    ReadableLog (.ofCapacity 1) DiffLogBuilder.sampleEnv taggedChanges
      (db'.diffLog.map fun e => ⟨1, e.seq, e.packageName, e.instr⟩) := by
  have hparse : ∀ c ∈ taggedChanges, (c.parse DiffLogBuilder.sampleEnv).isSome := by
    decide +kernel
  obtain ⟨db', metrics, hrun, -, -⟩ := processChanges_spec ⟨∅, []⟩ hparse
  refine ⟨db', metrics, hrun,
    readableLog_processChanges (LruCaches.ofCapacity_lawful 1) hrun ?_⟩
  simp [Function.comp_def, withoutId]

end Call

end NpmFollower.RelationalDbBuilder
