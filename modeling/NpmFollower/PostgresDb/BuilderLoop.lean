import NpmFollower.Library.Runs
import NpmFollower.PostgresDb.Transaction

/-! # The main loop of the builders

A builder reads a page of its input after its position, writes what the page says
and the new position in one transaction, and moves on. The position in memory stays
the persisted one exactly as long as no COMMIT fails.
-/

namespace NpmFollower.PostgresDb

/-- What a builder persists. `processed` are the rows whose effects `tables` has. -/
structure BuilderDb (τ ι : Type) where
  tables : τ
  processedSeq : Option ℤ
  processed : List ι

/-- What the two main loops differ in. -/
structure Builder (κ τ ι : Type) where
  seq : ι → ℤ
  query : List ι → ℤ → ℤ → List ι
  /-- The limit of the query, from the pages of the process so far. -/
  pageSize : List (List ι) → ℤ
  lastPage : List ι → Bool
  new : κ
  /-- `none` is a panic in the closure; no transaction is committed then. -/
  processPage : κ → List ι → τ → Option (κ × τ)

structure BuilderProcess (κ ι : Type) where
  processor : κ
  pages : List (List ι)
  processedUpTo : ℤ
  /-- The loop is behind its `break`. -/
  ended : Bool

/-- `shown` is how far the input has been written: its tables are only appended to. -/
structure BuilderState (κ τ ι : Type) where
  shown : ℤ
  db : BuilderDb τ ι
  process : Option (BuilderProcess κ ι)

inductive BuilderAction where
  | arrive (upTo : ℤ)
  | start
  | batch (commit : Option DieselError)
  | kill

variable {κ τ ι : Type}

def BuilderDb.position (db : BuilderDb τ ι) : ℤ := db.processedSeq.getD 0

namespace Builder

variable (B : Builder κ τ ι) (log : List ι)

def rows (s : BuilderState κ τ ι) : List ι := log.filter fun row => B.seq row ≤ s.shown

def page (s : BuilderState κ τ ι) (p : BuilderProcess κ ι) : List ι :=
  B.query (B.rows log s) p.processedUpTo (B.pageSize p.pages)

/-- What the closure of a batch leaves, unless it panics. -/
def closure (db : BuilderDb τ ι) (processor : κ) (entries : List ι) (last : ι) :
    Option (κ × BuilderDb τ ι) :=
  (B.processPage processor entries db.tables).map fun r =>
    (r.1, ⟨r.2, some (B.seq last), db.processed ++ entries⟩)

/-- One round of the loop. An `unwrap` that fails ends the process, as a panic does. -/
def batch (commit : Option DieselError) (s : BuilderState κ τ ι) (p : BuilderProcess κ ι) :
    BuilderState κ τ ι :=
  let entries := B.page log s p
  match entries.getLast? with
  | none => { s with process := some { p with ended := true } }
  | some last =>
    match B.closure s.db p.processor entries last with
    | none => { s with process := none }
    | some (processor, written) =>
      match runPsqlTransaction commit (fun _ => (.ok (processor, true), written)) s.db with
      | (some (.ok processor), db) =>
        { s with
          db
          process := some ⟨processor, p.pages ++ [entries], B.seq last, B.lastPage entries⟩ }
      | (_, db) => { s with db, process := none }

def step (s : BuilderState κ τ ι) : BuilderAction → Option (BuilderState κ τ ι)
  | .arrive upTo => some { s with shown := max s.shown upTo }
  | .start =>
    -- `check_no_concurrent_processes`
    if s.process.isNone then some { s with process := some ⟨B.new, [], s.db.position, false⟩ }
    else none
  | .batch commit =>
    match s.process with
    | none => none
    | some p => if p.ended then none else some (B.batch log commit s p)
  | .kill => some { s with process := none }

/-- No process is running. -/
def initial (shown : ℤ) (db : BuilderDb τ ι) : BuilderState κ τ ι := ⟨shown, db, none⟩

/-- A position in memory is not ahead, and nothing after the start is behind a position without
having been processed. -/
structure InStep (start : ℤ) (s : BuilderState κ τ ι) : Prop where
  notAhead : ∀ p ∈ s.process, p.processedUpTo ≤ s.db.position
  noneSkipped : ∀ row ∈ log, start < B.seq row →
    (B.seq row ≤ s.db.position ∨ ∃ p ∈ s.process, B.seq row ≤ p.processedUpTo) →
    row ∈ s.db.processed

/-- A page is ready to be committed, and its COMMIT fails. -/
def LosesCommit (s : BuilderState κ τ ι) (a : BuilderAction) : Prop :=
  ∃ e p last, a = .batch (some e) ∧ s.process = some p ∧ p.ended = false ∧
    (B.page log s p).getLast? = some last ∧
    (B.closure s.db p.processor (B.page log s p) last).isSome

/-- In every state of the run. -/
def StaysInStep (shown : ℤ) (db : BuilderDb τ ι) (as : List BuilderAction) : Prop :=
  ∀ before s, before <+: as → Runs.perform (B.step log) (initial shown db) before = some s →
    B.InStep log db.position s

/-- At every step of the run. -/
def LosesNoCommit (shown : ℤ) (db : BuilderDb τ ι) (as : List BuilderAction) : Prop :=
  ∀ before a s, before ++ [a] <+: as →
    Runs.perform (B.step log) (initial shown db) before = some s → ¬ B.LosesCommit log s a

/-- Pages are the rows between a position and the last of the page. -/
structure ReadsPages : Prop where
  mem : ∀ {shown after limit row},
    row ∈ B.query (log.filter fun row => B.seq row ≤ shown) after limit →
      row ∈ log ∧ after < B.seq row ∧ B.seq row ≤ shown
  all : ∀ {shown after limit last row},
    (B.query (log.filter fun row => B.seq row ≤ shown) after limit).getLast? = some last →
      row ∈ log → B.seq row ≤ shown → after < B.seq row → B.seq row ≤ B.seq last →
      row ∈ B.query (log.filter fun row => B.seq row ≤ shown) after limit

/-- The invariant: a position in memory is the persisted one. -/
structure Synced (start : ℤ) (s : BuilderState κ τ ι) : Prop where
  position : ∀ p ∈ s.process, p.processedUpTo = s.db.position
  processed : ∀ row ∈ log, start < B.seq row → B.seq row ≤ s.db.position → row ∈ s.db.processed

variable {B log}

theorem Synced.inStep {start : ℤ} {s : BuilderState κ τ ι} (h : B.Synced log start s) :
    B.InStep log start s := by
  constructor
  · intro p hp
    exact (h.position p hp).le
  · intro row hrow hstart hbehind
    apply h.processed row hrow hstart
    rcases hbehind with hle | ⟨p, hp, hle⟩
    · exact hle
    · rwa [h.position p hp] at hle

theorem synced_initial (shown : ℤ) (db : BuilderDb τ ι) :
    B.Synced log db.position (initial shown db) := by
  constructor
  · intro p hp
    cases hp
  · intro row _ hstart hle
    exact absurd hstart (not_lt.mpr hle)

/-- What a round of the loop can do. -/
theorem batch_cases (B : Builder κ τ ι) (log : List ι) (commit : Option DieselError)
    (s : BuilderState κ τ ι) (p : BuilderProcess κ ι) :
    ((B.page log s p).getLast? = none ∧
      B.batch log commit s p = { s with process := some { p with ended := true } }) ∨
    (∃ last, (B.page log s p).getLast? = some last ∧
      B.closure s.db p.processor (B.page log s p) last = none ∧
      B.batch log commit s p = { s with process := none }) ∨
    ∃ last processor tables, (B.page log s p).getLast? = some last ∧
      B.closure s.db p.processor (B.page log s p) last =
        some (processor, ⟨tables, some (B.seq last), s.db.processed ++ B.page log s p⟩) ∧
      B.batch log commit s p = { s with
        db := if commit = none then
          ⟨tables, some (B.seq last), s.db.processed ++ B.page log s p⟩ else s.db
        process := some ⟨processor, p.pages ++ [B.page log s p], B.seq last,
          B.lastPage (B.page log s p)⟩ } := by
  cases hlast : (B.page log s p).getLast? with
  | none =>
    left
    simp [batch, hlast]
  | some last =>
    right
    cases hprocess : B.processPage p.processor (B.page log s p) s.db.tables with
    | none =>
      have hclosure : B.closure s.db p.processor (B.page log s p) last = none := by
        simp [closure, hprocess]
      left
      exact ⟨last, rfl, hclosure, by simp [batch, hlast, hclosure]⟩
    | some r =>
      obtain ⟨processor, tables⟩ := r
      have hclosure : B.closure s.db p.processor (B.page log s p) last =
          some (processor, ⟨tables, some (B.seq last), s.db.processed ++ B.page log s p⟩) := by
        simp [closure, hprocess]
      right
      refine ⟨last, processor, tables, rfl, hclosure, ?_⟩
      simp only [batch, hlast, hclosure]
      rw [runPsqlTransaction_commit commit rfl]

section

variable (hreads : B.ReadsPages log) {start : ℤ} {s s' : BuilderState κ τ ι}

include hreads

theorem Synced.batch {p : BuilderProcess κ ι} (h : B.Synced log start s)
    (hp : s.process = some p) (hended : p.ended = false) {commit : Option DieselError}
    (hkept : ¬ B.LosesCommit log s (.batch commit)) :
    B.Synced log start (B.batch log commit s p) := by
  rcases batch_cases B log commit s p with
    ⟨-, hbatch⟩ | ⟨last, -, -, hbatch⟩ | ⟨last, processor, tables, hlast, hclosure, hbatch⟩
  · rw [hbatch]
    constructor
    · intro p' hp'
      cases hp'
      exact h.position p hp
    · exact h.processed
  · rw [hbatch]
    constructor
    · intro p' hp'
      cases hp'
    · exact h.processed
  · have hcommit : commit = none := by
      by_contra hfails
      obtain ⟨e, rfl⟩ := Option.ne_none_iff_exists'.mp hfails
      exact hkept ⟨e, p, last, rfl, hp, hended, hlast, by rw [hclosure]; rfl⟩
    rw [hbatch, if_pos hcommit]
    constructor
    · intro p' hp'
      cases hp'
      rfl
    · intro row hrow hstart hle
      have hshown : B.seq last ≤ s.shown := (hreads.mem (List.mem_of_getLast? hlast)).2.2
      apply List.mem_append.mpr
      rcases le_or_gt (B.seq row) s.db.position with hbehind | hafter
      · exact Or.inl (h.processed row hrow hstart hbehind)
      · rw [← h.position p hp] at hafter
        exact Or.inr (hreads.all hlast hrow (le_trans hle hshown) hafter hle)

theorem Synced.step {a : BuilderAction} (h : B.Synced log start s)
    (hkept : ¬ B.LosesCommit log s a) (hstep : B.step log s a = some s') :
    B.Synced log start s' := by
  cases a with
  | arrive upTo =>
    cases hstep
    exact ⟨h.position, h.processed⟩
  | start =>
    rw [Builder.step] at hstep
    split_ifs at hstep with hnone
    cases hstep
    constructor
    · intro p hp
      cases hp
      rfl
    · exact h.processed
  | batch commit =>
    rw [Builder.step] at hstep
    split at hstep
    · cases hstep
    · next p hp =>
      split_ifs at hstep with hended
      cases hstep
      exact h.batch hreads hp (by simpa using hended) hkept
  | kill =>
    cases hstep
    constructor
    · intro p hp
      cases hp
    · exact h.processed

/-- After the failed COMMIT the position in memory is ahead. -/
theorem Synced.keeps_of_inStep {a : BuilderAction} (h : B.Synced log start s)
    (hstep : B.step log s a = some s') (hin : B.InStep log start s') :
    ¬ B.LosesCommit log s a := by
  rintro ⟨e, p, last, rfl, hp, hended, hlast, hsome⟩
  rw [Builder.step, hp] at hstep
  simp only [hended] at hstep
  cases hstep
  rcases batch_cases B log (some e) s p with
    ⟨hnone, -⟩ | ⟨last', hlast', hclosure, -⟩ | ⟨last', processor, tables, hlast', -, hbatch⟩
  · rw [hnone] at hlast
    cases hlast
  · rw [hlast] at hlast'
    cases hlast'
    rw [hclosure] at hsome
    cases hsome
  · rw [hlast] at hlast'
    cases hlast'
    have hafter : p.processedUpTo < B.seq last :=
      (hreads.mem (List.mem_of_getLast? hlast)).2.1
    have hnotAhead := hin.notAhead
    rw [hbatch] at hnotAhead
    have hle : B.seq last ≤ s.db.position := hnotAhead _ rfl
    have hposition := h.position p hp
    omega

/-- A run stays in step exactly when none of its steps loses a COMMIT. -/
theorem staysInStep_iff (shown : ℤ) (db : BuilderDb τ ι) {as : List BuilderAction}
    (hrun : Runs.perform (B.step log) (initial shown db) as = some s) :
    B.StaysInStep log shown db as ↔ B.LosesNoCommit log shown db as :=
  Runs.good_iff_meets (I := B.Synced log db.position) Synced.inStep (synced_initial shown db)
    (fun h hkept hstep => h.step hreads hkept hstep)
    (fun h hstep hin => h.keeps_of_inStep hreads hstep hin) hrun

end

end Builder

end NpmFollower.PostgresDb
