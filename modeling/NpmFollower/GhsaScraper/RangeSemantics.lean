import NpmFollower.GhsaScraper.ParseRange
import NpmFollower.PostgresDb.Precedence

/-! # The releases in a written range

A partial version stands for all releases with its numbers. A release is above it
when it is above all of these, below it when it is below all of them, and equal to
it when it is one of them. The parsed bounds hold of the same releases.
-/

namespace NpmFollower.GhsaScraper

open PostgresDb SemverSpecSerialization

structure Release where
  major : ℕ
  minor : ℕ
  bug : ℕ
  build : List String

namespace Release

def toSemver (v : Release) : Semver := ⟨v.major, v.minor, v.bug, [], v.build⟩

def numbers (v : Release) : ℕ × ℕ × ℕ := (v.major, v.minor, v.bug)

def Completes (v : Release) : PartialVersion → Prop
  | .major x => v.major = x.value
  | .minor x y => v.major = x.value ∧ v.minor = y.value
  | .bug x y z => v.major = x.value ∧ v.minor = y.value ∧ v.bug = z.value

/-- `v` is below every release that the version stands for. -/
def Below (v : Release) (pv : PartialVersion) : Prop :=
  ∀ w : Release, w.Completes pv → v.toSemver.Precedes w.toSemver

def Above (v : Release) (pv : PartialVersion) : Prop :=
  ∀ w : Release, w.Completes pv → w.toSemver.Precedes v.toSemver

end Release

inductive Operator where
  | eq | lt | le | gt | ge
deriving DecidableEq

namespace Operator

def text : Operator → List Char
  | eq => "= ".toList
  | lt => "< ".toList
  | le => "<= ".toList
  | gt => "> ".toList
  | ge => ">= ".toList

def Holds (v : Release) (pv : PartialVersion) : Operator → Prop
  | eq => v.Completes pv
  | lt => v.Below pv
  | le => v.Completes pv ∨ v.Below pv
  | gt => v.Above pv
  | ge => v.Completes pv ∨ v.Above pv

/-- The operator of a lower bound. -/
def lower (inclusive : Bool) : Operator := if inclusive then ge else gt

def upper (inclusive : Bool) : Operator := if inclusive then le else lt

end Operator

inductive WrittenRange where
  | single (op : Operator) (pv : PartialVersion)
  | between (lowerInc : Bool) (lower : PartialVersion) (upperInc : Bool) (upper : PartialVersion)

namespace WrittenRange

def text : WrittenRange → List Char
  | single op pv => op.text ++ pv.text
  | between lowerInc lower upperInc upper =>
    (Operator.lower lowerInc).text ++ lower.text ++ ',' :: ' ' ::
      ((Operator.upper upperInc).text ++ upper.text)

def Holds (v : Release) : WrittenRange → Prop
  | single op pv => op.Holds v pv
  | between lowerInc lower upperInc upper =>
    (Operator.lower lowerInc).Holds v lower ∧ (Operator.upper upperInc).Holds v upper

end WrittenRange

/-! ## Bounds in precedence -/

def LowerHolds (lower : Option Semver) (inclusive : Bool) (v : Semver) : Prop :=
  ∀ l ∈ lower, if inclusive then ¬v.Precedes l else l.Precedes v

def UpperHolds (upper : Option Semver) (inclusive : Bool) (v : Semver) : Prop :=
  ∀ u ∈ upper, if inclusive then ¬u.Precedes v else v.Precedes u

def Bounds.Hold (b : Bounds) (v : Semver) : Prop :=
  LowerHolds b.1 b.2.1 v ∧ UpperHolds b.2.2.1 b.2.2.2 v

def LexLT (a b : ℕ × ℕ × ℕ) : Prop :=
  a.1 < b.1 ∨ (a.1 = b.1 ∧ (a.2.1 < b.2.1 ∨ (a.2.1 = b.2.1 ∧ a.2.2 < b.2.2)))

theorem precedes_iff (a b : ℕ × ℕ × ℕ) (x y : List String) :
    Semver.Precedes ⟨a.1, a.2.1, a.2.2, [], x⟩ ⟨b.1, b.2.1, b.2.2, [], y⟩ ↔ LexLT a b := by
  simp only [Semver.Precedes, Semver.precedence, compareLex, compareOn, prereleasePrecedence,
    Ordering.then_eq, Ordering.then_eq_lt, compare_lt_iff_lt, compare_eq_iff_eq, Nat.cast_lt,
    Nat.cast_inj, LexLT]

namespace Release

variable (v : Release) (pv : PartialVersion)

theorem precedes_toSemver_iff (w : Release) :
    v.toSemver.Precedes w.toSemver ↔ LexLT v.numbers w.numbers :=
  precedes_iff v.numbers w.numbers v.build w.build

theorem below_iff : v.Below pv ↔ LexLT v.numbers pv.floor := by
  simp only [Below, precedes_toSemver_iff]
  constructor
  · intro h
    cases pv with
    | major x => exact h ⟨x.value, 0, 0, []⟩ rfl
    | minor x y => exact h ⟨x.value, y.value, 0, []⟩ ⟨rfl, rfl⟩
    | bug x y z => exact h ⟨x.value, y.value, z.value, []⟩ ⟨rfl, rfl, rfl⟩
  · intro h w hw
    cases pv <;> simp only [LexLT, numbers, PartialVersion.floor, Completes] at h hw ⊢ <;> omega

/-- To be above a partial version is to be at or after the next one. -/
theorem above_iff : v.Above pv ↔ ¬LexLT v.numbers pv.next := by
  simp only [Above, precedes_toSemver_iff]
  constructor
  · intro h hlt
    cases pv with
    | major x =>
      have hw := h ⟨x.value, v.minor, v.bug, []⟩ rfl
      simp only [LexLT, numbers, PartialVersion.next] at hw hlt
      omega
    | minor x y =>
      have hw := h ⟨x.value, y.value, v.bug, []⟩ ⟨rfl, rfl⟩
      simp only [LexLT, numbers, PartialVersion.next] at hw hlt
      omega
    | bug x y z =>
      have hw := h ⟨x.value, y.value, z.value, []⟩ ⟨rfl, rfl, rfl⟩
      simp only [LexLT, numbers, PartialVersion.next] at hw hlt
      omega
  · intro h w hw
    cases pv <;> simp only [LexLT, numbers, PartialVersion.next, Completes] at h hw ⊢ <;> omega

theorem completes_iff :
    v.Completes pv ↔ ¬LexLT v.numbers pv.floor ∧ LexLT v.numbers pv.next := by
  cases pv <;>
    simp only [LexLT, numbers, PartialVersion.floor, PartialVersion.next, Completes] <;> omega

theorem lexLT_next_of_floor (h : LexLT v.numbers pv.floor) : LexLT v.numbers pv.next := by
  cases pv <;> simp only [LexLT, PartialVersion.floor, PartialVersion.next] at h ⊢ <;> omega

end Release

/-- Every comparison asks whether the release is before the first release with the numbers
or before the one after the last. -/
theorem Operator.holds_iff (v : Release) (pv : PartialVersion) (op : Operator) : op.Holds v pv ↔
    match op with
    | eq => ¬LexLT v.numbers pv.floor ∧ LexLT v.numbers pv.next
    | lt => LexLT v.numbers pv.floor
    | le => LexLT v.numbers pv.next
    | gt => ¬LexLT v.numbers pv.next
    | ge => ¬LexLT v.numbers pv.floor := by
  have hnext := v.lexLT_next_of_floor pv
  cases op with
  | eq => exact v.completes_iff pv
  | lt => exact v.below_iff pv
  | le =>
    rw [Holds, v.completes_iff pv, v.below_iff pv]
    exact ⟨fun h => h.elim And.right hnext, fun h => (em _).symm.imp (fun hno => ⟨hno, h⟩) id⟩
  | gt => exact v.above_iff pv
  | ge =>
    rw [Holds, v.completes_iff pv, v.above_iff pv]
    exact ⟨fun h => h.elim And.left (mt hnext), fun h => (em _).imp (fun hlt => ⟨h, hlt⟩) id⟩

/-! ## The parsed bounds -/

/-- What `parse_range` makes of a lower bound. -/
def lowerEnd (pv : PartialVersion) (inclusive : Bool) : Option Semver × Bool :=
  (some (release (if !inclusive && pv.isPartial then pv.next else pv.floor)),
    if !inclusive && pv.isPartial then !inclusive else inclusive)

def upperEnd (pv : PartialVersion) (inclusive : Bool) : Option Semver × Bool :=
  (some (release (if inclusive && pv.isPartial then pv.next else pv.floor)),
    if inclusive && pv.isPartial then !inclusive else inclusive)

theorem precedes_release_iff (v : Release) (n : ℕ × ℕ × ℕ) :
    v.toSemver.Precedes (release n) ↔ LexLT v.numbers n :=
  precedes_iff v.numbers n v.build []

theorem release_precedes_iff (v : Release) (n : ℕ × ℕ × ℕ) :
    (release n).Precedes v.toSemver ↔ LexLT n v.numbers :=
  precedes_iff n v.numbers [] v.build

/-- After a full version there is no release before the next number. -/
theorem floor_lexLT_iff {pv : PartialVersion} (h : pv.isPartial = false) (n : ℕ × ℕ × ℕ) :
    LexLT pv.floor n ↔ ¬LexLT n pv.next := by
  cases pv with
  | bug x y z =>
    simp only [LexLT, PartialVersion.floor, PartialVersion.next]
    omega
  | _ => cases h

theorem lowerHolds_lowerEnd (v : Release) (pv : PartialVersion) (inclusive : Bool) :
    LowerHolds (lowerEnd pv inclusive).1 (lowerEnd pv inclusive).2 v.toSemver ↔
      (Operator.lower inclusive).Holds v pv := by
  rw [Operator.holds_iff]
  cases inclusive with
  | true => simp [LowerHolds, lowerEnd, Operator.lower, precedes_release_iff]
  | false =>
    cases hpartial : pv.isPartial with
    | true => simp [LowerHolds, lowerEnd, Operator.lower, hpartial, precedes_release_iff]
    | false =>
      simp [LowerHolds, lowerEnd, Operator.lower, hpartial, release_precedes_iff,
        floor_lexLT_iff hpartial]

theorem upperHolds_upperEnd (v : Release) (pv : PartialVersion) (inclusive : Bool) :
    UpperHolds (upperEnd pv inclusive).1 (upperEnd pv inclusive).2 v.toSemver ↔
      (Operator.upper inclusive).Holds v pv := by
  rw [Operator.holds_iff]
  cases inclusive with
  | false => simp [UpperHolds, upperEnd, Operator.upper, precedes_release_iff]
  | true =>
    cases hpartial : pv.isPartial with
    | true => simp [UpperHolds, upperEnd, Operator.upper, hpartial, precedes_release_iff]
    | false =>
      simp [UpperHolds, upperEnd, Operator.upper, hpartial, release_precedes_iff,
        floor_lexLT_iff hpartial]

/-! ## Reading the text of a range -/

theorem splitComma_cons {c : Char} (hc : c ≠ ',') (rest piece : List Char)
    (pieces : List (List Char)) (h : splitComma rest = piece :: pieces) :
    splitComma (c :: rest) = (c :: piece) :: pieces := by
  rw [splitComma.eq_3 c rest fun _ heq => absurd heq hc, h]

theorem splitComma_of_not_mem {s : List Char} (h : ',' ∉ s) : splitComma s = [s] := by
  induction s with
  | nil => rfl
  | cons c s ih =>
    rw [List.mem_cons, not_or] at h
    exact splitComma_cons (Ne.symm h.1) s s [] (ih h.2)

theorem splitComma_append {a : List Char} (h : ',' ∉ a) (b : List Char) :
    splitComma (a ++ ',' :: ' ' :: b) = a :: splitComma b := by
  induction a with
  | nil => rfl
  | cons c a ih =>
    rw [List.mem_cons, not_or] at h
    exact splitComma_cons (Ne.symm h.1) _ a _ (ih h.2)

theorem comma_not_mem_text (pv : PartialVersion) : ',' ∉ pv.text := by
  have hcomma (x : Component) : ',' ∉ x.text := fun h =>
    absurd ((mem_digits_iff.mp x.text_mem).2 ',' h) (by decide)
  cases pv with
  | major x => exact hcomma x
  | minor x y => simp [PartialVersion.text, hcomma]
  | bug x y z => simp [PartialVersion.text, hcomma]

theorem comma_not_mem_bound (op : Operator) (pv : PartialVersion) : ',' ∉ op.text ++ pv.text := by
  rw [List.mem_append, not_or]
  refine ⟨?_, comma_not_mem_text pv⟩
  cases op <;> decide

theorem parseRangeTexts_single (op : Operator) (pv : PartialVersion) (ghsaId : String) :
    parseRangeTexts (String.ofList (WrittenRange.single op pv).text) ghsaId = .ok
      (match op with
      | .eq => (some pv.text, true, some pv.text, true)
      | .lt => (none, true, some pv.text, false)
      | .le => (none, true, some pv.text, true)
      | .gt => (some pv.text, false, none, true)
      | .ge => (some pv.text, true, none, true)) := by
  rw [parseRangeTexts, String.toList_ofList, WrittenRange.text,
    splitComma_of_not_mem (comma_not_mem_bound op pv)]
  cases op <;> rfl

theorem parseRangeTexts_between (lowerInc upperInc : Bool) (lower upper : PartialVersion)
    (ghsaId : String) :
    parseRangeTexts (String.ofList (WrittenRange.between lowerInc lower upperInc upper).text) ghsaId =
      .ok (some lower.text, lowerInc, some upper.text, upperInc) := by
  rw [parseRangeTexts, String.toList_ofList, WrittenRange.text,
    splitComma_append (comma_not_mem_bound _ lower),
    splitComma_of_not_mem (comma_not_mem_bound _ upper)]
  cases lowerInc <;> cases upperInc <;> rfl

theorem parseEnd_text (U : Unicode) (name ghsaId : String) (pv : PartialVersion)
    (inc needRoundUp : Bool) :
    parseEnd U name ghsaId (some pv.text) inc needRoundUp = .ok
      (some (release (if needRoundUp && pv.isPartial then pv.next else pv.floor)),
        if needRoundUp && pv.isPartial then !inc else inc) := by
  rw [parseEnd, parseVersionBestEffort_text]

/-- The bounds that are parsed of a range hold of the releases in the range. -/
theorem parseRange_holds_iff (U : Unicode) (range : WrittenRange) (ghsaId : String) :
    ∃ bounds, parseRange U (String.ofList range.text) ghsaId = .ok bounds ∧
      ∀ v : Release, bounds.Hold v.toSemver ↔ range.Holds v := by
  cases range with
  | between lowerInc lower upperInc upper =>
    refine ⟨((lowerEnd lower lowerInc).1, (lowerEnd lower lowerInc).2,
      (upperEnd upper upperInc).1, (upperEnd upper upperInc).2), ?_, ?_⟩
    · rw [parseRange, parseRangeTexts_between]
      simp only [bind, Except.bind, parseEnd_text]
      rfl
    · intro v
      exact and_congr (lowerHolds_lowerEnd v lower lowerInc) (upperHolds_upperEnd v upper upperInc)
  | single op pv =>
    rw [parseRange, parseRangeTexts_single]
    cases op with
    | eq =>
      refine ⟨((lowerEnd pv true).1, (lowerEnd pv true).2, (upperEnd pv true).1,
        (upperEnd pv true).2), ?_, ?_⟩
      · simp only [bind, Except.bind, parseEnd_text]
        rfl
      · intro v
        have hboth := and_congr (lowerHolds_lowerEnd v pv true) (upperHolds_upperEnd v pv true)
        have heq := Operator.holds_iff v pv .eq
        have hge := Operator.holds_iff v pv .ge
        have hle := Operator.holds_iff v pv .le
        exact hboth.trans ((and_congr hge hle).trans heq.symm)
    | lt =>
      refine ⟨(none, true, (upperEnd pv false).1, (upperEnd pv false).2), ?_, ?_⟩
      · simp only [bind, Except.bind, parseEnd_text]
        rfl
      · intro v
        exact (and_iff_right fun l hl => by cases hl).trans (upperHolds_upperEnd v pv false)
    | le =>
      refine ⟨(none, true, (upperEnd pv true).1, (upperEnd pv true).2), ?_, ?_⟩
      · simp only [bind, Except.bind, parseEnd_text]
        rfl
      · intro v
        exact (and_iff_right fun l hl => by cases hl).trans (upperHolds_upperEnd v pv true)
    | gt =>
      refine ⟨((lowerEnd pv false).1, (lowerEnd pv false).2, none, true), ?_, ?_⟩
      · simp only [bind, Except.bind, parseEnd_text]
        rfl
      · intro v
        exact (and_iff_left fun u hu => by cases hu).trans (lowerHolds_lowerEnd v pv false)
    | ge =>
      refine ⟨((lowerEnd pv true).1, (lowerEnd pv true).2, none, true), ?_, ?_⟩
      · simp only [bind, Except.bind, parseEnd_text]
        rfl
      · intro v
        exact (and_iff_left fun u hu => by cases hu).trans (lowerHolds_lowerEnd v pv true)

end NpmFollower.GhsaScraper
