import NpmFollower.SemverSpecSerialization.Matches
import NpmFollower.Library.Folds

/-! # Spellings of a version

A spelling is a text cut into the parts that are captured. Parsing a text gives
the version of its spelling, and no spelling has another version.
-/

namespace NpmFollower.SemverSpecSerialization

open PostgresDb Regex Pattern

/-- The parts of a matched text. -/
structure Spelling (U : Unicode) where
  leading : List Char
  major : List Char
  minor : List Char
  bug : List Char
  prerelease : Option (List Char)
  build : Option (List Char)
  leading_isLeading : ∀ c ∈ leading, isLeading c = true
  major_mem : major ∈ digits.lang
  minor_mem : minor ∈ digits.lang
  bug_mem : bug ∈ digits.lang
  prerelease_mem : ∀ p ∈ prerelease, p ∈ (SemverSpecSerialization.prerelease U).lang
  build_mem : ∀ b ∈ build, b ∈ SemverSpecSerialization.build.lang

namespace Spelling

variable {U : Unicode} (S : Spelling U)

/-- The groups of the match. -/
def captures : Captures Char :=
  buildCaptures S.build ++ prereleaseCaptures S.prerelease ++ [(3, S.bug)] ++ [(2, S.minor)] ++
    [(1, S.major)]

/-- The text up to the third number. -/
def numbers : List Char := S.leading ++ (S.major ++ '.' :: (S.minor ++ '.' :: S.bug))

/-- The version that is spelled. -/
def version : Except ParseSemverError Semver := do
  let m1 ← parseNumber S.major
  let m2 ← parseNumber S.minor
  let m3 ← parseNumber S.bug
  return {
    major := m1, minor := m2, bug := m3
    prerelease := (S.prerelease.map parsePrereleaseTags).getD []
    build := (S.build.map parseBuildTags).getD [] }

theorem text_captures : text S.captures 1 = S.major ∧ text S.captures 2 = S.minor ∧
    text S.captures 3 = S.bug := by
  simp only [captures, text]
  cases S.prerelease <;> cases S.build <;> exact ⟨rfl, rfl, rfl⟩

theorem lookup_captures : S.captures.lookup 4 = S.prerelease ∧ S.captures.lookup 5 = S.build := by
  simp only [captures]
  cases S.prerelease <;> cases S.build <;> exact ⟨rfl, rfl⟩

/-- A text whose match has the groups of a spelling is parsed as its version. -/
theorem parseSemver_eq {x : String}
    (h : (semverRegex U).exec (trim x.toList) = some S.captures) :
    parseSemver U x = S.version := by
  obtain ⟨h1, h2, h3⟩ := S.text_captures
  obtain ⟨h4, h5⟩ := S.lookup_captures
  rw [parseSemver, h, Option.elim_some]
  simp only [bind, Except.bind, h1, h2, h3, h4, h5]
  rfl

end Spelling

variable {U : Unicode}

/-- Every match is that of a spelling. The rest after its third number begins with no digit, unless
the match has cut the number. -/
theorem exists_spelling {t : List Char} {m : Captures Char}
    (h : (semverRegex U).exec t = some m) :
    ∃ (S : Spelling U) (rest : List Char), m = S.captures ∧ t = S.numbers ++ rest ∧
      rest ∈ (tagsPart U).lang ∧
      ((∀ c ∈ rest.head?, c.isDigit = false) ∨
        ∃ x z, rest = x :: z ∧ x.isDigit = true ∧ (∀ c ∈ z.head?, c.isDigit = false) ∧
          SplitTail U z) := by
  obtain ⟨pre, d1, d2, r, e, rfl, hpre, h1, h2, hbug, rfl⟩ := exists_of_exec_semverRegex h
  obtain ⟨d3, rest, e', rfl, h3, htags, rfl, hrest⟩ := exists_of_exec_bugPart hbug
  obtain ⟨p, b, hp, hb, rfl⟩ := exists_of_exec_tagsPart htags
  exact ⟨⟨pre, d1, d2, d3, p, b, hpre, h1, h2, h3, hp, hb⟩, rest, rfl, by simp [Spelling.numbers],
    (exec_isSome_iff _ _).mp (by rw [htags]; rfl), hrest⟩

theorem exists_of_parseSemver {x : String} {s : Semver} (h : parseSemver U x = .ok s) :
    ∃ m, (semverRegex U).exec (trim x.toList) = some m := by
  cases hm : (semverRegex U).exec (trim x.toList) with
  | some m => exact ⟨m, rfl⟩
  | none =>
    rw [parseSemver, hm] at h
    cases h

section Numbers

/-- The number that digits write. -/
def number (d : List Char) : ℕ := Nat.ofDigitChars 10 d 0

def FitsI64 (d : List Char) : Prop := number d < 2 ^ 63

theorem parseI64_digits {d : List Char} (hd : d ∈ digits.lang) :
    parseI64 d = if number d < 2 ^ 63 then some (number d : ℤ) else none := by
  obtain ⟨hne, hdigits⟩ := mem_digits_iff.mp hd
  have hall : d.all Char.isDigit = true := List.all_eq_true.mpr hdigits
  unfold parseI64
  split
  · exact absurd (hdigits '-' List.mem_cons_self) (by decide)
  · exact absurd (hdigits '+' List.mem_cons_self) (by decide)
  · simp only [ne_eq, hne, not_false_eq_true, hall, true_and, number]
    congr

theorem parseNumber_of_fits {d : List Char} (hd : d ∈ digits.lang) (h : FitsI64 d) :
    parseNumber d = .ok (number d) := by
  have hlt : number d < 2 ^ 63 := h
  rw [parseNumber, parseI64_digits hd, if_pos hlt]
  rfl

theorem fits_of_parseNumber {d : List Char} (hd : d ∈ digits.lang) {n : ℤ}
    (h : parseNumber d = .ok n) : FitsI64 d ∧ n = number d := by
  rw [parseNumber, parseI64_digits hd] at h
  split_ifs at h with hfits
  · cases h
    exact ⟨hfits, rfl⟩
  · cases h

/-- What is read of a spelling whose numbers fit. -/
def Spelling.read (S : Spelling U) : Semver where
  major := number S.major
  minor := number S.minor
  bug := number S.bug
  prerelease := (S.prerelease.map parsePrereleaseTags).getD []
  build := (S.build.map parseBuildTags).getD []

theorem Spelling.version_of_fits (S : Spelling U) (h1 : FitsI64 S.major) (h2 : FitsI64 S.minor)
    (h3 : FitsI64 S.bug) : S.version = .ok S.read := by
  rw [Spelling.version, parseNumber_of_fits S.major_mem h1, parseNumber_of_fits S.minor_mem h2,
    parseNumber_of_fits S.bug_mem h3]
  rfl

theorem Spelling.fits_of_version {S : Spelling U} {s : Semver} (h : S.version = .ok s) :
    FitsI64 S.major ∧ FitsI64 S.minor ∧ FitsI64 S.bug ∧ s = S.read := by
  rw [Spelling.version] at h
  obtain ⟨m1, h1, h⟩ := Folds.ok_of_bind h
  obtain ⟨m2, h2, h⟩ := Folds.ok_of_bind h
  obtain ⟨m3, h3, h⟩ := Folds.ok_of_bind h
  obtain ⟨hfits1, rfl⟩ := fits_of_parseNumber S.major_mem h1
  obtain ⟨hfits2, rfl⟩ := fits_of_parseNumber S.minor_mem h2
  obtain ⟨hfits3, rfl⟩ := fits_of_parseNumber S.bug_mem h3
  cases h
  exact ⟨hfits1, hfits2, hfits3, rfl⟩

theorem exists_spelling_of_parseSemver {x : String} {s : Semver} (h : parseSemver U x = .ok s) :
    ∃ S : Spelling U, (semverRegex U).exec (trim x.toList) = some S.captures ∧ s = S.read := by
  obtain ⟨m, hm⟩ := exists_of_parseSemver h
  obtain ⟨S, rest, rfl, -⟩ := exists_spelling hm
  rw [S.parseSemver_eq hm] at h
  exact ⟨S, hm, (Spelling.fits_of_version h).2.2.2⟩

theorem Spelling.eq_of_captures {S S' : Spelling U} (h : S.captures = S'.captures) :
    S.read = S'.read := by
  obtain ⟨h1, h2, h3⟩ := S.text_captures
  obtain ⟨h4, h5⟩ := S.lookup_captures
  obtain ⟨h1', h2', h3'⟩ := S'.text_captures
  obtain ⟨h4', h5'⟩ := S'.lookup_captures
  rw [Spelling.read, Spelling.read, ← h1, ← h2, ← h3, ← h4, ← h5, h, h1', h2', h3', h4', h5']

/-- Two texts that spell their numbers and tags alike but for leading characters, leading zeros, the
hyphen and the digits of numbers among the tags. -/
def SpelledAlike (U : Unicode) (x y : String) : Prop :=
  ∃ S T : Spelling U, (semverRegex U).exec (trim x.toList) = some S.captures ∧
    (semverRegex U).exec (trim y.toList) = some T.captures ∧
    number S.major = number T.major ∧ number S.minor = number T.minor ∧
    number S.bug = number T.bug ∧
    S.prerelease.map parsePrereleaseTags = T.prerelease.map parsePrereleaseTags ∧
    S.build = T.build

theorem parseBuildTags_injective : Function.Injective parseBuildTags := by
  intro b b' h
  have hmap : (parseBuildTags b).map String.toList = (parseBuildTags b').map String.toList := by
    rw [h]
  have htext (c : List Char) : (parseBuildTags c).map String.toList = c.splitOn '.' := by
    rw [parseBuildTags, List.map_map]
    exact (List.map_congr_left fun w _ => String.toList_ofList).trans (List.map_id _)
  have hjoin (c : List Char) : ['.'].intercalate (c.splitOn '.') = c := List.intercalate_splitOn '.'
  rw [htext, htext] at hmap
  rw [← hjoin b, hmap, hjoin]

/-- Tags that are there are read as at least one tag. -/
theorem getD_map_inj {α β : Type} {f : α → List β} (hf : ∀ a, f a ≠ []) {x y : Option α} :
    (x.map f).getD [] = (y.map f).getD [] ↔ x.map f = y.map f := by
  cases x <;> cases y <;> simp [hf, eq_comm]

/-- Two accepted texts are one version exactly when they are spelled alike. -/
theorem parseSemver_eq_iff {x y : String} {s t : Semver} (hx : parseSemver U x = .ok s)
    (hy : parseSemver U y = .ok t) : s = t ↔ SpelledAlike U x y := by
  have htags (p : List Char) : parsePrereleaseTags p ≠ [] := by
    simp [parsePrereleaseTags, List.splitOn_ne_nil]
  have hbuild (b : List Char) : parseBuildTags b ≠ [] := by
    simp [parseBuildTags, List.splitOn_ne_nil]
  have hread (S T : Spelling U) : S.read = T.read ↔
      number S.major = number T.major ∧ number S.minor = number T.minor ∧
        number S.bug = number T.bug ∧
        S.prerelease.map parsePrereleaseTags = T.prerelease.map parsePrereleaseTags ∧
        S.build = T.build := by
    simp only [Spelling.read, Semver.mk.injEq, Nat.cast_inj, getD_map_inj htags,
      getD_map_inj hbuild, (Option.map_injective parseBuildTags_injective).eq_iff]
  obtain ⟨S, hS, rfl⟩ := exists_spelling_of_parseSemver hx
  obtain ⟨T, hT, rfl⟩ := exists_spelling_of_parseSemver hy
  constructor
  · intro h
    exact ⟨S, T, hS, hT, (hread S T).mp h⟩
  · rintro ⟨S', T', hS', hT', halike⟩
    rw [Spelling.eq_of_captures (Option.some.inj (hS.symm.trans hS')),
      Spelling.eq_of_captures (Option.some.inj (hT.symm.trans hT'))]
    exact (hread S' T').mpr halike

end Numbers

end NpmFollower.SemverSpecSerialization
