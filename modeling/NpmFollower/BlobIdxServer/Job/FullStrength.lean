import NpmFollower.BlobIdxServer.Job.Exclusive

/-! # What the pool loses

The workers that can be handed out, with those that replacements still owe, are
counted by the strength of the abstract pool. A failed command of a replacement
or a call dropped at the wrong place lowers it by one, and nothing raises it.
-/

namespace NpmFollower.BlobIdxServer.Job

open Std PostgresDb TokenPool

namespace WorkerPool

variable {s s' s₀ : WorkerPool} {a : ℕ × Action}

/-- No call is in progress: all that is left are guards and the tasks of dropped ones. -/
def Idle (s : WorkerPool) : Prop :=
  ∀ c ∈ s.calls, (∃ w, c = .guard w) ∨ ∃ jobId, c = .release jobId

/-- The pool holds all the workers it may, and each of them has an id on its way. -/
def Full (s : WorkerPool) : Prop :=
  s.pool.size = s.maxWorkerJobs ∧ ∀ jobId ∈ s.pool, jobId ∈ s.tokens

theorem Idle.underway (h : s.Idle) : s.desk.underway = 0 := by
  have hzero : ∀ n ∈ s.calls.map Call.underway, n = 0 := by
    intro n hn
    obtain ⟨c, hc, rfl⟩ := List.mem_map.mp hn
    rcases h c hc with ⟨w, rfl⟩ | ⟨jobId, rfl⟩ <;> rfl
  exact List.sum_eq_zero hzero

theorem Full.strength (hidle : s.Idle) (h : s.Full) : s.desk.strength = s.maxWorkerJobs := by
  have hall : ∀ x ∈ s.desk.slots, x ∈ s.desk.tokens :=
    fun x hx => h.2 x ((mem_slots s x).mp hx)
  rw [(Desk.strength_eq_size_iff _).mpr hall, Desk.size, card_slots, hidle.underway, h.1]
  rfl

theorem full_of_strength (hinv : s.Inv) (hidle : s.Idle)
    (h : s.desk.strength = s.maxWorkerJobs) : s.Full := by
  have hle := Desk.strength_le_size s.desk
  have hmax := hinv.size
  have hsize : s.desk.strength = s.desk.size := by omega
  have hcard : s.desk.size = s.pool.size := by
    rw [Desk.size, card_slots, hidle.underway]
    rfl
  refine ⟨by omega, fun jobId hj => ?_⟩
  exact (Desk.strength_eq_size_iff _).mp hsize jobId ((mem_slots s jobId).mpr hj)

theorem strength_of_step (hinv : s.Inv) (hfresh : s.FreshIds a) (h : s.step a = some s') :
    (¬s.Loses a → s'.desk.strength = s.desk.strength) ∧
      (s.Loses a → s'.desk.strength < s.desk.strength) ∧ s'.Inv := by
  obtain ⟨hdesk, hinv'⟩ := deskStep_of_step hinv hfresh h
  refine ⟨fun hnot => ?_, fun hloses => ?_, hinv'⟩
  · rcases hdesk with ⟨_, hstep⟩ | ⟨hloses, _⟩
    · exact hstep.strength
    · exact absurd hloses hnot
  · rcases hdesk with ⟨hnot, _⟩ | ⟨_, hloss⟩
    · exact absurd hloses hnot
    · have hstrength := hloss.strength hinv.nodup
      omega

/-- Nothing that happens later makes a loss good. -/
theorem strength_of_reach (hinv : s.Inv) (hrun : Runs.Reach step FreshIds s s') :
    s'.Inv ∧ s'.maxWorkerJobs = s.maxWorkerJobs ∧ s'.desk.strength ≤ s.desk.strength := by
  refine hrun.invariant (I := fun s' => s'.Inv ∧ s'.maxWorkerJobs = s.maxWorkerJobs ∧
    s'.desk.strength ≤ s.desk.strength) ⟨hinv, rfl, le_rfl⟩ ?_
  rintro t a t' ⟨hinv, hmax, hle⟩ hfresh hstep
  obtain ⟨hkeeps, hloses, hinv'⟩ := strength_of_step hinv hfresh hstep
  refine ⟨hinv', (maxWorkerJobs_of_step hstep).trans hmax, ?_⟩
  by_cases hlossy : t.Loses a
  · exact (hloses hlossy).le.trans hle
  · exact (hkeeps hlossy).le.trans hle

theorem Populated.strength (h : Populated s₀) : s₀.desk.strength = s₀.maxWorkerJobs := by
  rw [(Desk.strength_eq_size_iff _).mpr h.exact.2, h.size]

/-- A run that loses nothing has a full pool whenever no call is in progress, and after a step that
loses something the pool is never full again. -/
theorem full_iff_lossless (h₀ : Populated s₀) :
    (∀ s, Runs.Reach step (fun s a => s.FreshIds a ∧ ¬s.Loses a) s₀ s → s.Idle → s.Full) ∧
      ∀ s a s' t, Runs.Reach step FreshIds s₀ s → s.FreshIds a → s.step a = some s' →
        s.Loses a → Runs.Reach step FreshIds s' t → t.Idle → ¬t.Full := by
  constructor
  · intro s hrun hidle
    obtain ⟨hinv, hmax, hstrength⟩ := hrun.invariant
      (I := fun s => s.Inv ∧ s.maxWorkerJobs = s₀.maxWorkerJobs ∧
        s.desk.strength = s₀.desk.strength) ⟨h₀.inv, rfl, rfl⟩ (by
      rintro s a s' ⟨hinv, hmax, hstrength⟩ ⟨hfresh, hnot⟩ hstep
      obtain ⟨hkeeps, _, hinv'⟩ := strength_of_step hinv hfresh hstep
      exact ⟨hinv', (maxWorkerJobs_of_step hstep).trans hmax, (hkeeps hnot).trans hstrength⟩)
    refine full_of_strength hinv hidle ?_
    rw [hstrength, h₀.strength, hmax]
  · intro s a s' t hrun hfresh hstep hloses hlater hidle hfull
    obtain ⟨hinv, hmax, hle⟩ := strength_of_reach h₀.inv hrun
    obtain ⟨_, hless, hinv'⟩ := strength_of_step hinv hfresh hstep
    obtain ⟨_, hmax', hle'⟩ := strength_of_reach hinv' hlater
    have hmax'' := maxWorkerJobs_of_step hstep
    have hstrength := hfull.strength hidle
    have hless := hless hloses
    rw [h₀.strength] at hle
    omega

/-- A worker that has run too long is replaced. -/
theorem full_after_replacement :
    ∃ s₀ s, Populated s₀ ∧ Runs.Reach step (fun s a => s.FreshIds a ∧ ¬s.Loses a) s₀ s ∧
      s.avail = [2] ∧ s.Full := by
  let s₀ := ((init 1).populate [⟨1, "R", 0, "c1"⟩] (fun _ => true) []).getD (init 1)
  let actions : List (ℕ × Action) :=
    [(0, .getWorker), (0, .recv (maxWorkerAge + 1)), (0, .cancelled true), (0, .spawned (some 2)),
      (0, .send), (0, .abort)]
  let s := (Runs.performIf step (fun s a => s.FreshIds a ∧ ¬s.Loses a) s₀ actions).getD s₀
  have h₀ : Populated s₀ := populated_getD (by decide +kernel) (by decide +kernel)
  have hrun : Runs.Reach step (fun s a => s.FreshIds a ∧ ¬s.Loses a) s₀ s :=
    Runs.reachIf_getD s₀ (by decide +kernel)
  have hidle : s.Idle := by
    have hcalls : s.calls = [] := by decide +kernel
    intro c hc
    rw [hcalls] at hc
    cases hc
  exact ⟨s₀, s, h₀, hrun, by decide +kernel, (full_iff_lossless h₀).1 s hrun hidle⟩

/-- The one worker has run too long, and `scancel` fails: the pool stays empty. -/
theorem not_full_cancel_failed :
    ¬∀ s₀ s, Populated s₀ → Runs.Reach step FreshIds s₀ s → s.Idle → s.Full := by
  intro hfull
  let s₀ := ((init 1).populate [⟨1, "R", 0, "c1"⟩] (fun _ => true) []).getD (init 1)
  let actions : List (ℕ × Action) :=
    [(0, .getWorker), (0, .recv (maxWorkerAge + 1)), (0, .cancelled false), (0, .abort)]
  let s := (Runs.performIf step FreshIds s₀ actions).getD s₀
  have h₀ : Populated s₀ := populated_getD (by decide +kernel) (by decide +kernel)
  have hrun : Runs.Reach step FreshIds s₀ s := Runs.reachIf_getD s₀ (by decide +kernel)
  have hidle : s.Idle := by
    have hcalls : s.calls = [] := by decide +kernel
    intro c hc
    rw [hcalls] at hc
    cases hc
  have hsize : s.pool.size ≠ s.maxWorkerJobs := by decide +kernel
  exact hsize (hfull s₀ s h₀ hrun hidle).1

end WorkerPool

end NpmFollower.BlobIdxServer.Job
