import Mathlib

/-! # Transactions

`run_psql_transaction` hands the result of its closure out through a captured
variable, which is set before COMMIT runs. An error of COMMIT is lost there.
-/

namespace NpmFollower.PostgresDb

inductive DieselError where
  | rollbackTransaction
  | other (message : String)
deriving DecidableEq

variable {δ ρ α σ : Type}

/-- `Connection::transaction` of diesel, for a closure that also sets variables of its caller.
`commit` is the error of COMMIT, if it fails; then nothing is persisted. -/
def transaction (commit : Option DieselError) (closure : δ → (Except DieselError α × σ) × δ)
    (db : δ) : (Except DieselError α × σ) × δ :=
  match closure db with
  | ((.ok a, captured), db') =>
    match commit with
    | none => ((.ok a, captured), db')
    | some e => ((.error e, captured), db)
  | ((.error e, captured), _) => ((.error e, captured), db)

/-- The closure that `run_psql_transaction` passes on, with the variable `res`. -/
def capture (closure : δ → Except DieselError (ρ × Bool) × δ) (db : δ) :
    (Except DieselError Unit × Option ρ) × δ :=
  match closure db with
  | (.error e, db') => ((.error e, none), db')
  | (.ok (result, true), db') => ((.ok (), some result), db')
  | (.ok (result, false), db') => ((.error .rollbackTransaction, some result), db')

/-- `none` is the panic of `maybe_err.unwrap()`. -/
def runPsqlTransaction (commit : Option DieselError)
    (closure : δ → Except DieselError (ρ × Bool) × δ) (db : δ) :
    Option (Except DieselError ρ) × δ :=
  match transaction commit (capture closure) db with
  | ((_, some r), db') => (some (.ok r), db')
  | ((.error e, none), db') => (some (.error e), db')
  | ((.ok (), none), db') => (none, db')

section

variable {closure : δ → Except DieselError (ρ × Bool) × δ} {db : δ}

theorem runPsqlTransaction_error (commit : Option DieselError) {e : DieselError} (h : (closure db).1 = .error e) :
    runPsqlTransaction commit closure db = (some (.error e), db) := by
  rcases hrun : closure db with ⟨result, db'⟩
  rw [hrun] at h
  cases h
  simp [runPsqlTransaction, transaction, capture, hrun]

theorem runPsqlTransaction_rollback (commit : Option DieselError) {r : ρ} (h : (closure db).1 = .ok (r, false)) :
    runPsqlTransaction commit closure db = (some (.ok r), db) := by
  rcases hrun : closure db with ⟨result, db'⟩
  rw [hrun] at h
  cases h
  simp [runPsqlTransaction, transaction, capture, hrun]

/-- The result comes back whether COMMIT succeeds or not. -/
theorem runPsqlTransaction_commit (commit : Option DieselError) {r : ρ} (h : (closure db).1 = .ok (r, true)) :
    runPsqlTransaction commit closure db =
      (some (.ok r), if commit = none then (closure db).2 else db) := by
  rcases hrun : closure db with ⟨result, db'⟩
  rw [hrun] at h
  cases h
  cases commit <;> simp [runPsqlTransaction, transaction, capture, hrun]

/-- The contract of the wrapper. -/
structure ReportsCommit (commit : Option DieselError)
    (closure : δ → Except DieselError (ρ × Bool) × δ) (db : δ) : Prop where
  ok_iff : ∀ r, (runPsqlTransaction commit closure db).1 = some (.ok r) ↔
    ∃ shouldCommit, (closure db).1 = .ok (r, shouldCommit) ∧ (shouldCommit = false ∨ commit = none)
  otherwise : (∀ r, (runPsqlTransaction commit closure db).1 ≠ some (.ok r)) →
    (∃ e, (runPsqlTransaction commit closure db).1 = some (.error e)) ∧
      (runPsqlTransaction commit closure db).2 = db

/-- The contract is kept unless a COMMIT that the closure asked for fails. -/
theorem reportsCommit_iff (commit : Option DieselError) :
    ReportsCommit commit closure db ↔ commit = none ∨ ∀ r, (closure db).1 ≠ .ok (r, true) := by
  rcases hresult : (closure db).1 with e | ⟨r, shouldCommit⟩
  · have hrun := runPsqlTransaction_error commit hresult
    constructor
    · intro _
      exact Or.inr fun r hr => by cases hr
    · intro _
      constructor
      · intro r
        simp [hrun, hresult]
      · intro _
        exact ⟨⟨e, by rw [hrun]⟩, by rw [hrun]⟩
  · cases shouldCommit with
    | false =>
      have hrun := runPsqlTransaction_rollback commit hresult
      constructor
      · intro _
        exact Or.inr fun r' hr => by cases hr
      · intro _
        constructor
        · intro r'
          simp [hrun, hresult]
        · intro hno
          exact absurd (by rw [hrun]) (hno r)
    | true =>
      have hrun := runPsqlTransaction_commit commit hresult
      constructor
      · intro h
        obtain ⟨shouldCommit, heq, hcommit⟩ := (h.ok_iff r).mp (by rw [hrun])
        rw [hresult] at heq
        cases heq
        exact Or.inl (hcommit.resolve_left (by decide))
      · rintro (rfl | hno)
        · constructor
          · intro r'
            simp [hrun, hresult]
          · intro hno
            exact absurd (by rw [hrun]) (hno r)
        · exact absurd rfl (hno r)

end

end NpmFollower.PostgresDb
