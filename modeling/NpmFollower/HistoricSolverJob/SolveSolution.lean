import NpmFollower.PostgresDb.Precedence

/-! # What a solve says about the updated package

The solver keeps the versions it solved for each package, tells whether all of
them are newer than a reference and reports them in order. Both use the derived
order of versions; the two kinds of pairs on which it leaves precedence decide
when this matters.
-/

namespace NpmFollower.HistoricSolverJob

open PostgresDb

/-- The elements in the order in which the set hands them out. -/
structure HashSet (α : Type) where
  elements : List α
  nodup : elements.Nodup

namespace HashSet

variable {α : Type} [DecidableEq α]

def empty : HashSet α := ⟨[], List.nodup_nil⟩

def insert (set : HashSet α) (a : α) : HashSet α :=
  if h : a ∈ set.elements then set
  else ⟨set.elements ++ [a], List.nodup_append.mpr ⟨set.nodup, List.nodup_singleton a,
    fun _ hx _ hy heq => h (by rwa [← List.mem_singleton.mp hy, ← heq])⟩⟩

end HashSet

structure SolveSolutionMetrics where
  downstreamV : Semver
  solveTime : DateTime
  deps : BTreeMap String (HashSet Semver)
  fullPackageLock : Value

structure SolveResult where
  solveTime : DateTime
  downstreamVersion : Semver
  updateVersions : List Semver
  fullPackageLock : Value

namespace SolveSolutionMetrics

def new (downstreamV : Semver) (solveTime : DateTime) (fullPackageLock : Value) :
    SolveSolutionMetrics :=
  { downstreamV, solveTime, deps := ∅, fullPackageLock }

def pushDep (metrics : SolveSolutionMetrics) (package : String) (version : Semver) :
    SolveSolutionMetrics :=
  { metrics with
    deps := metrics.deps.insert package ((metrics.deps[package]?.getD .empty).insert version) }

def contains (metrics : SolveSolutionMetrics) (package : String) (version : Semver) : Bool :=
  (metrics.deps[package]?.map fun versions => decide (version ∈ versions.elements)).getD false

def toSolveResult (metrics : SolveSolutionMetrics) (updatePackage : String) : SolveResult where
  solveTime := metrics.solveTime
  downstreamVersion := metrics.downstreamV
  updateVersions :=
    ((metrics.deps[updatePackage]?.map HashSet.elements).getD []).mergeSort
      fun a b => (compare a b).isLE
  fullPackageLock := metrics.fullPackageLock

/-- `none` is the panic on a package without a solved version. -/
def allOldGone (metrics : SolveSolutionMetrics) (package : String) (oldVersion : Semver) :
    Option Bool :=
  metrics.deps[package]?.map fun versions =>
    versions.elements.all fun v => compare oldVersion v == .lt

def areDepsRemoved (metrics : SolveSolutionMetrics) (package : String) : Bool :=
  !metrics.deps.contains package

end SolveSolutionMetrics

/-! ## Where the derived order is enough -/

/-- Nothing hides a version that the derived order takes for newer, or for older,
than it is: some other version is not newer in either order, or both kinds occur
together, or neither does. -/
def Judged (versions : List Semver) (old : Semver) : Prop :=
  (∃ v ∈ versions, ¬old.Precedes v ∧ ¬Semver.Overrated old v) ∨
    ((∃ v ∈ versions, Semver.Overrated old v) ∧ ∃ v ∈ versions, Semver.Inverted v old) ∨
      ∀ v ∈ versions, ¬Semver.Overrated old v ∧ ¬Semver.Inverted v old

theorem forall_compare_lt_iff {versions : List Semver} {old : Semver} :
    ((∀ v ∈ versions, compare old v = .lt) ↔ ∀ v ∈ versions, old.Precedes v) ↔
      Judged versions old := by
  have hover : ∀ v, Semver.Overrated old v → ¬old.Precedes v :=
    fun v => Semver.not_precedes_of_overrated
  have hunder : ∀ v, Semver.Inverted v old → old.Precedes v :=
    fun v h => (Semver.orders_of_inverted h).2.2
  simp only [Semver.compare_lt_iff]
  constructor
  · intro heq
    by_cases hprec : ∀ v ∈ versions, old.Precedes v
    · refine Or.inr (Or.inr fun v hv => ?_)
      have hv' := heq.mpr hprec v hv
      have hno : ¬Semver.Overrated old v := fun ho => hover v ho (hprec v hv)
      exact ⟨hno, (hv'.resolve_right hno).2⟩
    · have hcmp := mt heq.mp hprec
      push Not at hprec hcmp
      obtain ⟨v, hv, hvp⟩ := hprec
      obtain ⟨w, hw, hwp, hwo⟩ := hcmp
      by_cases hvo : Semver.Overrated old v
      · by_cases hwq : old.Precedes w
        · exact Or.inr (Or.inl ⟨⟨v, hv, hvo⟩, w, hw, hwp hwq⟩)
        · exact Or.inl ⟨w, hw, hwq, hwo⟩
      · exact Or.inl ⟨v, hv, hvp, hvo⟩
  · rintro (⟨v, hv, hvp, hvo⟩ | ⟨⟨v, hv, hvo⟩, w, hw, hwi⟩ | hnone)
    · constructor
      · intro h
        rcases h v hv with h | h
        · exact absurd h.1 hvp
        · exact absurd h hvo
      · intro h
        exact absurd (h v hv) hvp
    · constructor
      · intro h
        rcases h w hw with h | h
        · exact absurd hwi h.2
        · exact absurd (hunder w hwi) (hover w h)
      · intro h
        exact absurd (h v hv) (hover v hvo)
    · constructor
      · intro h v hv
        exact ((h v hv).resolve_right (hnone v hv).1).1
      · intro h v hv
        exact Or.inl ⟨h v hv, (hnone v hv).2⟩

theorem pairwise_mergeSort_compare (versions : List Semver) :
    (versions.mergeSort fun a b => (compare a b).isLE).Pairwise
      fun a b => (compare a b).isLE = true := by
  apply @List.pairwise_mergeSort Semver fun a b => (compare a b).isLE
  · intro a b c
    exact Std.TransOrd.isLE_trans
  · intro a b
    rw [Std.OrientedOrd.eq_swap (a := b)]
    cases compare a b <;> rfl

/-- `a` may stand before `b` in both orders. -/
def InOrder (a b : Semver) : Prop := (compare a b).isLE = true ∧ ¬b.Precedes a

/-- The sorted list is in the order of precedence when no pair is inverted. -/
theorem pairwise_mergeSort_iff {versions : List Semver} :
    (versions.mergeSort fun a b => (compare a b).isLE).Pairwise (fun a b => ¬b.Precedes a) ↔
      ∀ u ∈ versions, ∀ v ∈ versions, ¬Semver.Inverted u v := by
  have hsorted := pairwise_mergeSort_compare versions
  have hmem : ∀ v, v ∈ (versions.mergeSort fun a b => (compare a b).isLE) ↔ v ∈ versions :=
    fun v => List.mem_mergeSort
  constructor
  · intro h u hu v hv hinv
    obtain ⟨hlt, -, hprec⟩ := Semver.orders_of_inverted hinv
    have hgt : compare v u = .gt := Std.OrientedCmp.gt_iff_lt.mpr hlt
    have hne : u ≠ v := fun heq => not_inverted_self _ (heq ▸ hinv).2
    have : Std.Symm fun a b => InOrder a b ∨ InOrder b a := ⟨fun _ _ => Or.symm⟩
    have hpairs : (versions.mergeSort fun a b => (compare a b).isLE).Pairwise
        fun a b => InOrder a b ∨ InOrder b a :=
      (hsorted.and h).imp fun hab => Or.inl hab
    -- one of the two stands before the other
    have hboth := hpairs.forall ((hmem u).mpr hu) ((hmem v).mpr hv) hne
    rcases hboth with ⟨-, hno⟩ | ⟨hle, -⟩
    · exact hno hprec
    · rw [hgt] at hle
      cases hle
  · intro h
    apply hsorted.imp_of_mem
    intro a b ha hb hle
    exact Semver.not_precedes_of_isLE hle (h a ((hmem a).mp ha) b ((hmem b).mp hb))

/-! ## The solver's two uses of the order -/

/-- `all_old_gone` and `to_solve_result` follow precedence for the versions of one package. -/
def FollowsPrecedence (metrics : SolveSolutionMetrics) (package : String)
    (versions : HashSet Semver) (old : Semver) : Prop :=
  (metrics.allOldGone package old = some true ↔ ∀ v ∈ versions.elements, old.Precedes v) ∧
    (metrics.toSolveResult package).updateVersions.Pairwise fun a b => ¬b.Precedes a

theorem followsPrecedence_iff (metrics : SolveSolutionMetrics) (package : String)
    (versions : HashSet Semver) (old : Semver) (h : metrics.deps[package]? = some versions) :
    FollowsPrecedence metrics package versions old ↔
      Judged versions.elements old ∧
        ∀ u ∈ versions.elements, ∀ v ∈ versions.elements, ¬Semver.Inverted u v := by
  have hgone : metrics.allOldGone package old = some true ↔
      ∀ v ∈ versions.elements, compare old v = .lt := by
    simp [SolveSolutionMetrics.allOldGone, h]
  have hsolve : (metrics.toSolveResult package).updateVersions =
      versions.elements.mergeSort fun a b => (compare a b).isLE := by
    simp [SolveSolutionMetrics.toSolveResult, h]
  rw [FollowsPrecedence, hgone, hsolve, forall_compare_lt_iff, pairwise_mergeSort_iff]

def release (major : ℤ) : Semver := ⟨major, 0, 0, [], []⟩

def solved (v : Semver) : SolveSolutionMetrics :=
  (SolveSolutionMetrics.new (release 1) 0 .null).pushDep "a" v

theorem deps_solved (v : Semver) :
    (solved v).deps["a"]? = some (HashSet.insert .empty v) := by
  simp [solved, SolveSolutionMetrics.new, SolveSolutionMetrics.pushDep]

theorem followsPrecedence_nextMajor :
    (solved (release 2)).deps["a"]? = some (HashSet.insert .empty (release 2)) ∧
      (FollowsPrecedence (solved (release 2)) "a" (HashSet.insert .empty (release 2)) (release 1) ↔
        Judged (HashSet.insert .empty (release 2)).elements (release 1) ∧
          ∀ u ∈ (HashSet.insert .empty (release 2)).elements,
            ∀ v ∈ (HashSet.insert .empty (release 2)).elements, ¬Semver.Inverted u v) :=
  ⟨deps_solved _, followsPrecedence_iff _ _ _ _ (deps_solved _)⟩

/-- The beta of `1.0.0` counts as newer than `1.0.0`. -/
theorem not_followsPrecedence_beta :
    ¬∀ (metrics : SolveSolutionMetrics) (package : String) (versions : HashSet Semver)
      (old : Semver), metrics.deps[package]? = some versions → versions.elements ≠ [] →
        FollowsPrecedence metrics package versions old := by
  intro h
  have hbeta := h _ _ _ (release 1) (deps_solved ⟨1, 0, 0, [.string "beta"], []⟩) (by decide)
  have hgone : (solved ⟨1, 0, 0, [.string "beta"], []⟩).allOldGone "a" (release 1) = some true := by
    rw [SolveSolutionMetrics.allOldGone, deps_solved]
    decide
  exact absurd (hbeta.1.mp hgone) (by decide)

end NpmFollower.HistoricSolverJob
