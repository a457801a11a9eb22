import NpmFollower.PostgresDb.CustomTypes

/-! # The precedence of versions

Semver compares the three numbers, then puts a prerelease below its release,
numeric identifiers below alphanumeric ones and a proper prefix below what it is
a prefix of. Build metadata does not count. The derived order is compared with it.
-/

namespace NpmFollower.PostgresDb

open Std

namespace PrereleaseTag

def precedence : PrereleaseTag → PrereleaseTag → Ordering
  | .int a, .int b => compare a b
  | .int _, .string _ => .lt
  | .string _, .int _ => .gt
  | .string a, .string b => compare a b

/-- The first tags that differ are a string on the left and a number on the right. -/
def stringBeforeInt : List PrereleaseTag → List PrereleaseTag → Bool
  | .string _ :: _, .int _ :: _ => true
  | a :: as, b :: bs => a == b && stringBeforeInt as bs
  | _, _ => false

theorem precedence_string (a b : String) : precedence (string a) (string b) = compare a b := rfl

theorem precedence_int (a b : ℤ) : precedence (int a) (int b) = compare a b := rfl

theorem precedence_self (x : PrereleaseTag) : precedence x x = .eq := by
  cases x with
  | string a => exact compare_self
  | int a => exact compare_self

theorem stringBeforeInt_nil (xs : List PrereleaseTag) : stringBeforeInt xs [] = false := by
  cases xs with
  | nil => rfl
  | cons x xs => cases x <;> rfl

theorem stringBeforeInt_self (xs : List PrereleaseTag) : stringBeforeInt xs xs = false := by
  induction xs with
  | nil => rfl
  | cons x xs ih => cases x <;> simp [stringBeforeInt, ih]

theorem orders_of_stringBeforeInt {xs ys : List PrereleaseTag}
    (h : stringBeforeInt xs ys = true) :
    compare xs ys = .lt ∧ List.compareLex precedence xs ys = .gt ∧
      List.compareLex precedence ys xs = .lt := by
  induction xs generalizing ys with
  | nil => cases ys <;> cases h
  | cons x xs ih =>
    cases ys with
    | nil => rw [stringBeforeInt_nil] at h; cases h
    | cons y ys =>
      rw [List.compare_cons_cons, List.compareLex_cons_cons, List.compareLex_cons_cons]
      by_cases hxy : x = y
      · subst hxy
        have htail : stringBeforeInt xs ys = true := by
          cases x <;> simpa [stringBeforeInt] using h
        rw [compare_self, precedence_self]
        exact ih htail
      · cases x <;> cases y
        · simp_all [stringBeforeInt]
        · exact ⟨rfl, rfl, rfl⟩
        · simp [stringBeforeInt] at h
        · simp_all [stringBeforeInt]

theorem compareLex_precedence_of_not {xs ys : List PrereleaseTag}
    (h : stringBeforeInt xs ys = false) (h' : stringBeforeInt ys xs = false) :
    List.compareLex precedence xs ys = compare xs ys := by
  induction xs generalizing ys with
  | nil => cases ys <;> rfl
  | cons x xs ih =>
    cases ys with
    | nil => rfl
    | cons y ys =>
      rw [List.compare_cons_cons, List.compareLex_cons_cons]
      by_cases hxy : x = y
      · subst hxy
        have htail : stringBeforeInt xs ys = false ∧ stringBeforeInt ys xs = false := by
          cases x <;> simpa [stringBeforeInt] using And.intro h h'
        rw [ih htail.1 htail.2]
        cases x <;> rfl
      · cases x with
        | string a =>
          cases y with
          | string b =>
            have hne : compare a b ≠ .eq := fun heq => hxy (congrArg string (Std.compare_eq_iff_eq.mp heq))
            rw [precedence_string, compare_string]
            cases hc : compare a b <;> simp_all
          | int b => cases h
        | int a =>
          cases y with
          | string b => cases h'
          | int b =>
            have hne : compare a b ≠ .eq := fun heq => hxy (congrArg int (Std.compare_eq_iff_eq.mp heq))
            rw [precedence_int, compare_int]
            cases hc : compare a b <;> simp_all

end PrereleaseTag

/-- No prerelease is above every prerelease. -/
def prereleasePrecedence : List PrereleaseTag → List PrereleaseTag → Ordering
  | [], [] => .eq
  | [], _ :: _ => .gt
  | _ :: _, [] => .lt
  | xs, ys => List.compareLex PrereleaseTag.precedence xs ys

/-- The prerelease parts that the derived order and precedence put in opposite order. -/
def Inverted (xs ys : List PrereleaseTag) : Prop :=
  (xs = [] ∧ ys ≠ []) ∨ PrereleaseTag.stringBeforeInt xs ys = true

theorem orders_of_inverted {xs ys : List PrereleaseTag} (h : Inverted xs ys) :
    compare xs ys = .lt ∧ prereleasePrecedence xs ys = .gt ∧
      prereleasePrecedence ys xs = .lt := by
  rcases h with ⟨hx, hy⟩ | h
  · subst hx
    cases ys with
    | nil => exact absurd rfl hy
    | cons y ys => exact ⟨rfl, rfl, rfl⟩
  · cases xs with
    | nil => cases ys <;> cases h
    | cons x xs =>
      cases ys with
      | nil => rw [PrereleaseTag.stringBeforeInt_nil] at h; cases h
      | cons y ys => exact PrereleaseTag.orders_of_stringBeforeInt h

theorem prereleasePrecedence_of_not_inverted {xs ys : List PrereleaseTag}
    (h : ¬Inverted xs ys) (h' : ¬Inverted ys xs) : prereleasePrecedence xs ys = compare xs ys := by
  simp only [Inverted, not_or, not_and, not_not, Bool.not_eq_true] at h h'
  cases xs with
  | nil =>
    cases ys with
    | nil => rfl
    | cons y ys => exact absurd (h.1 rfl) (by simp)
  | cons x xs =>
    cases ys with
    | nil => exact absurd (h'.1 rfl) (by simp)
    | cons y ys => exact PrereleaseTag.compareLex_precedence_of_not h.2 h'.2

theorem not_inverted_self (xs : List PrereleaseTag) : ¬Inverted xs xs := by
  simp [Inverted, PrereleaseTag.stringBeforeInt_self]

namespace Semver

def precedence : Semver → Semver → Ordering :=
  compareLex (compareOn major) (compareLex (compareOn minor) (compareLex (compareOn bug)
    fun a b => prereleasePrecedence a.prerelease b.prerelease))

/-- `a` has strictly lower precedence than `b`. -/
def Precedes (a b : Semver) : Prop := precedence a b = .lt

instance (a b : Semver) : Decidable (Precedes a b) := inferInstanceAs (Decidable (_ = _))

/-- The numbers before the prerelease. -/
def numbers (v : Semver) : ℤ × ℤ × ℤ := (v.major, v.minor, v.bug)

/-- `a` is below `b` in the derived order and above it in precedence. -/
def Inverted (a b : Semver) : Prop :=
  a.numbers = b.numbers ∧ PostgresDb.Inverted a.prerelease b.prerelease

theorem compare_of_numbers_eq {a b : Semver} (h : a.numbers = b.numbers) :
    compare a b = (compare a.prerelease b.prerelease).then (compare a.build b.build) := by
  simp only [numbers, Prod.mk.injEq] at h
  change compareLex _ _ a b = _
  simp [compareLex, compareOn, h.1, h.2.1, h.2.2]

theorem precedence_of_numbers_eq {a b : Semver} (h : a.numbers = b.numbers) :
    precedence a b = prereleasePrecedence a.prerelease b.prerelease := by
  simp only [numbers, Prod.mk.injEq] at h
  simp [precedence, compareLex, compareOn, h.1, h.2.1, h.2.2]

theorem orders_of_inverted {a b : Semver} (h : Inverted a b) :
    compare a b = .lt ∧ precedence a b = .gt ∧ Precedes b a := by
  obtain ⟨hcmp, hprec, hprec'⟩ := PostgresDb.orders_of_inverted h.2
  rw [compare_of_numbers_eq h.1, precedence_of_numbers_eq h.1, Precedes,
    precedence_of_numbers_eq h.1.symm, hcmp, hprec, hprec']
  exact ⟨rfl, rfl, rfl⟩

theorem compare_eq_precedence {a b : Semver} (h : ¬Inverted a b) (h' : ¬Inverted b a) :
    compare a b = (precedence a b).then (compare a.build b.build) := by
  by_cases hnum : a.numbers = b.numbers
  · rw [compare_of_numbers_eq hnum, precedence_of_numbers_eq hnum,
      prereleasePrecedence_of_not_inverted (fun hp => h ⟨hnum, hp⟩) fun hp => h' ⟨hnum.symm, hp⟩]
  · have hne : (compareLex (compareOn major) (compareLex (compareOn minor) (compareOn bug))) a b ≠
        .eq := by
      intro heq
      simp only [compareLex_eq_eq, compareOn, Std.compare_eq_iff_eq] at heq
      exact hnum (by simp [numbers, heq])
    change compareLex _ _ a b = _
    simp only [precedence, compareLex, compareOn, ne_eq, Ordering.then_assoc] at hne ⊢
    generalize compare a.major b.major = o₁ at hne ⊢
    generalize compare a.minor b.minor = o₂ at hne ⊢
    generalize compare a.bug b.bug = o₃ at hne ⊢
    cases o₁ <;> cases o₂ <;> cases o₃ <;> simp_all

/-- `v` counts as newer than `old` in the derived order and not in precedence. -/
def Overrated (old v : Semver) : Prop :=
  Inverted old v ∨
    (old.numbers = v.numbers ∧ old.prerelease = v.prerelease ∧ compare old.build v.build = .lt)

theorem precedence_eq_eq_iff {a b : Semver} (h : ¬Inverted a b) (h' : ¬Inverted b a) :
    precedence a b = .eq ↔ a.numbers = b.numbers ∧ a.prerelease = b.prerelease := by
  have hpre : a.numbers = b.numbers →
      prereleasePrecedence a.prerelease b.prerelease = compare a.prerelease b.prerelease :=
    fun hnum => prereleasePrecedence_of_not_inverted (fun hp => h ⟨hnum, hp⟩)
      fun hp => h' ⟨hnum.symm, hp⟩
  constructor
  · intro heq
    simp only [precedence, compareLex_eq_eq, compareOn, Std.compare_eq_iff_eq] at heq
    have hnum : a.numbers = b.numbers := by simp [numbers, heq]
    rw [hpre hnum, Std.compare_eq_iff_eq] at heq
    exact ⟨hnum, heq.2.2.2⟩
  · rintro ⟨hnum, heq⟩
    rw [precedence_of_numbers_eq hnum, hpre hnum, heq, compare_self]

theorem not_precedes_of_overrated {old v : Semver} (h : Overrated old v) : ¬Precedes old v := by
  rcases h with h | ⟨hnum, hpre, -⟩
  · rw [Precedes, (orders_of_inverted h).2.1]
    simp
  · rw [Precedes, precedence_of_numbers_eq hnum, hpre,
      prereleasePrecedence_of_not_inverted (not_inverted_self _) (not_inverted_self _), compare_self]
    simp

theorem compare_lt_iff {old v : Semver} :
    compare old v = .lt ↔ (Precedes old v ∧ ¬Inverted v old) ∨ Overrated old v := by
  by_cases h : Inverted old v
  · simp [(orders_of_inverted h).1, Overrated, h]
  · by_cases h' : Inverted v old
    · have hgt : compare old v = .gt := OrientedCmp.gt_iff_lt.mpr (orders_of_inverted h').1
      have hover : ¬Overrated old v :=
        fun ho => not_precedes_of_overrated ho (orders_of_inverted h').2.2
      simp [hgt, h', hover]
    · rw [compare_eq_precedence h h', Precedes, Overrated]
      have heq := precedence_eq_eq_iff h h'
      cases hp : precedence old v <;> simp_all

theorem not_precedes_of_isLE {a b : Semver} (hle : (compare a b).isLE = true)
    (h : ¬Inverted a b) : ¬Precedes b a := by
  intro hprec
  have hlt : compare b a = .lt := compare_lt_iff.mpr (Or.inl ⟨hprec, h⟩)
  rw [OrientedCmp.gt_iff_lt.mpr hlt] at hle
  cases hle

end Semver

end NpmFollower.PostgresDb
