import NpmFollower.SemverSpecSerialization.RoundTrip

/-! # Vulnerable version ranges of an advisory

A range is one bound or a lower and an upper bound. A bound on a partial version
is turned into one on a full version, rounded up where the comparison asks for it.
-/

namespace NpmFollower.GhsaScraper

open PostgresDb SemverSpecSerialization

/-- `split(", ")` -/
def splitComma : List Char → List (List Char)
  | [] => [[]]
  | ',' :: ' ' :: rest => [] :: splitComma rest
  | c :: rest =>
    match splitComma rest with
    | [] => [[c]]
    | piece :: pieces => (c :: piece) :: pieces

def parseLowerBound (s : List Char) : Except String (List Char × Bool) :=
  match ">= ".toList.isPrefixOf? s with
  | some vStr => .ok (vStr, true)
  | none =>
    match "> ".toList.isPrefixOf? s with
    | some vStr => .ok (vStr, false)
    | none => .error ("Invalid lower bound string: " ++ String.ofList s)

def parseUpperBound (s : List Char) : Except String (List Char × Bool) :=
  match "<= ".toList.isPrefixOf? s with
  | some vStr => .ok (vStr, true)
  | none =>
    match "< ".toList.isPrefixOf? s with
    | some vStr => .ok (vStr, false)
    | none => .error ("Invalid upper bound string: " ++ String.ofList s)

/-- The two bounds as texts, each with whether it is inclusive. -/
abbrev BoundTexts := Option (List Char) × Bool × Option (List Char) × Bool

def parseSingleBound (s : List Char) : Except String BoundTexts :=
  match "= ".toList.isPrefixOf? s with
  | some vStr => .ok (some vStr, true, some vStr, true)
  | none =>
    match "<= ".toList.isPrefixOf? s with
    | some vStr => .ok (none, true, some vStr, true)
    | none =>
      match "< ".toList.isPrefixOf? s with
      | some vStr => .ok (none, true, some vStr, false)
      | none =>
        match ">= ".toList.isPrefixOf? s with
        | some vStr => .ok (some vStr, true, none, true)
        | none =>
          match "> ".toList.isPrefixOf? s with
          | some vStr => .ok (some vStr, false, none, true)
          | none => .error ("Invalid single bound string: " ++ String.ofList s)

/-- An addition of `i64`, which wraps around. -/
def addI64 (a b : ℤ) : ℤ := Int.bmod (a + b) (2 ^ 64)

def numbersOnly (major minor bug : ℤ) : Semver := ⟨major, minor, bug, [], []⟩

/-- The version, and whether it stands for a partial one. -/
def parseVersionBestEffort (U : Unicode) (s : List Char) (needRoundUp : Bool) :
    Except ParseSemverError (Semver × Bool) :=
  match parseSemver U (String.ofList s) with
  | .ok v => .ok (v, false)
  | .error err =>
    match s.splitOn '.' with
    | [c1, c2] => do
      let major ← parseNumber c1
      let minor ← parseNumber c2
      return (numbersOnly major (if needRoundUp then addI64 minor 1 else minor) 0, true)
    | [c1] => do
      let major ← parseNumber c1
      return (numbersOnly (if needRoundUp then addI64 major 1 else major) 0 0, true)
    | _ => .error err

/-- The lower version, whether it is inclusive, the upper one, and whether it is inclusive. -/
abbrev Bounds := Option Semver × Bool × Option Semver × Bool

/-- One end of the range: the version and whether it is inclusive. -/
def parseEnd (U : Unicode) (name ghsaId : String) (str : Option (List Char)) (inc needRoundUp : Bool) :
    Except String (Option Semver × Bool) :=
  match str with
  | none => .ok (none, true)
  | some s =>
    match parseVersionBestEffort U s needRoundUp with
    | .ok (v, isWildcard) => .ok (some v, if needRoundUp && isWildcard then !inc else inc)
    | .error _ => .error ("Error: failed to parse " ++ name ++ " bound semver " ++
        String.ofList s ++ ", id = " ++ ghsaId)

def parseRangeTexts (rangeStr ghsaId : String) : Except String BoundTexts :=
  match splitComma rangeStr.toList with
  | [comp] => parseSingleBound comp
  | [comp1, comp2] => do
    let (lower, lowerInc) ← parseLowerBound comp1
    let (upper, upperInc) ← parseUpperBound comp2
    return (some lower, lowerInc, some upper, upperInc)
  | _ => .error ("Invalid range string: " ++ rangeStr ++ ", id = " ++ ghsaId)

/-- An error is a panic. `> 1.2` is `>= 1.3.0` and `<= 1.2` is `< 1.3.0`. -/
def parseRange (U : Unicode) (rangeStr ghsaId : String) : Except String Bounds := do
  let (lowerStr, lowerInc, upperStr, upperInc) ← parseRangeTexts rangeStr ghsaId
  let (lower, lowerInc) ← parseEnd U "lower" ghsaId lowerStr lowerInc (!lowerInc)
  let (upper, upperInc) ← parseEnd U "upper" ghsaId upperStr upperInc upperInc
  return (lower, lowerInc, upper, upperInc)

/-! ## Reading the text of a version -/

section Versions

variable {U : Unicode}

/-- A number of a version: digits of a value below the largest `i64`. -/
structure Component where
  text : List Char
  text_mem : text ∈ digits.lang
  number_lt : number text < 2 ^ 63 - 1

namespace Component

variable (x : Component)

def value : ℕ := number x.text

theorem parseNumber_text : parseNumber x.text = .ok (x.value : ℤ) := by
  have h := x.number_lt
  exact parseNumber_of_fits x.text_mem (by rw [FitsI64]; omega)

theorem dot_not_mem : '.' ∉ x.text := fun h =>
  absurd ((mem_digits_iff.mp x.text_mem).2 '.' h) (by decide)

theorem isWhitespace_text {c : Char} (hc : c ∈ x.text) : isWhitespace c = false :=
  isWhitespace_of_isDigit ((mem_digits_iff.mp x.text_mem).2 c hc)

theorem addI64_value : addI64 x.value 1 = x.value + 1 := by
  have h : x.value < 2 ^ 63 - 1 := x.number_lt
  rw [addI64, Int.bmod_eq_of_le] <;> omega

end Component

/-- A numeric version, full or partial. -/
inductive PartialVersion where
  | major (x : Component)
  | minor (x y : Component)
  | bug (x y z : Component)

namespace PartialVersion

def text : PartialVersion → List Char
  | major x => x.text
  | minor x y => x.text ++ '.' :: y.text
  | bug x y z => x.text ++ '.' :: (y.text ++ '.' :: z.text)

end PartialVersion

theorem exec_semverRegex_two_dots {t : List Char} {m : Regex.Captures Char}
    (h : (semverRegex U).exec t = some m) : 2 ≤ t.count '.' := by
  obtain ⟨pre, d1, d2, r, e, rfl, -⟩ := exists_of_exec_semverRegex h
  simp only [List.count_append, List.count_cons_self]
  omega

theorem trim_sublist (s : List Char) : (trim s).Sublist s := by
  rw [trim]
  have hback := List.reverse_sublist.mpr
    (List.dropWhile_sublist isWhitespace (l := (s.dropWhile isWhitespace).reverse))
  rw [List.reverse_reverse] at hback
  exact hback.trans (List.dropWhile_sublist isWhitespace)

theorem parseSemver_one_dot {s : List Char} (hs : s.count '.' < 2) :
    parseSemver U (String.ofList s) = .error .regexMatchFailed := by
  have hcount := (trim_sublist s).count_le '.'
  rw [parseSemver, String.toList_ofList]
  cases h : (semverRegex U).exec (trim s) with
  | none => rfl
  | some m =>
    have := exec_semverRegex_two_dots h
    omega

theorem parseSemver_numbers (x y z : Component) :
    parseSemver U (String.ofList (PartialVersion.bug x y z).text) =
      .ok (numbersOnly x.value y.value z.value) := by
  let S : Spelling U :=
    { leading := [], major := x.text, minor := y.text, bug := z.text, prerelease := none,
      build := none, leading_isLeading := by simp, major_mem := x.text_mem, minor_mem := y.text_mem,
      bug_mem := z.text_mem, prerelease_mem := by simp, build_mem := by simp }
  have hspace : ∀ c ∈ (PartialVersion.bug x y z).text, isWhitespace c = false := by
    intro c hc
    simp only [PartialVersion.text, List.mem_append, List.mem_cons] at hc
    rcases hc with hc | rfl | hc | rfl | hc
    · exact x.isWhitespace_text hc
    · decide
    · exact y.isWhitespace_text hc
    · decide
    · exact z.isWhitespace_text hc
  have htags : (tagsPart U).exec [] = some [] :=
    exec_tagsText (p := none) (b := none) (by simp) (by simp)
  have hbug : (bugPart U).exec z.text = some [(3, z.text)] := by
    have h := exec_bugPart_of_some z.text_mem (by simp) htags
    rwa [List.append_nil] at h
  have hmatch : (semverRegex U).exec (PartialVersion.bug x y z).text = some S.captures := by
    have h := exec_semverRegex (U := U) (show ∀ c ∈ ([] : List Char), isLeading c = true by simp) x.text_mem
      y.text_mem (r := z.text)
    rw [hbug] at h
    exact h
  have htrim := trim_eq_self (fun c hc => hspace c (List.mem_of_mem_head? hc))
    fun c hc => hspace c (List.mem_of_getLast? hc)
  rw [S.parseSemver_eq (by rw [String.toList_ofList, htrim, hmatch])]
  have hversion : S.version = (do
      let m1 ← parseNumber x.text
      let m2 ← parseNumber y.text
      let m3 ← parseNumber z.text
      return numbersOnly m1 m2 m3) := rfl
  rw [hversion, x.parseNumber_text, y.parseNumber_text, z.parseNumber_text]
  rfl

namespace PartialVersion

/-- The least release with these numbers. -/
def floor : PartialVersion → ℕ × ℕ × ℕ
  | major x => (x.value, 0, 0)
  | minor x y => (x.value, y.value, 0)
  | bug x y z => (x.value, y.value, z.value)

/-- The release after all those with these numbers. -/
def next : PartialVersion → ℕ × ℕ × ℕ
  | major x => (x.value + 1, 0, 0)
  | minor x y => (x.value, y.value + 1, 0)
  | bug x y z => (x.value, y.value, z.value + 1)

def isPartial : PartialVersion → Bool
  | bug .. => false
  | _ => true

end PartialVersion

def release (v : ℕ × ℕ × ℕ) : Semver := numbersOnly v.1 v.2.1 v.2.2

/-- A partial version is rounded up when asked, a full one never. -/
theorem parseVersionBestEffort_text (pv : PartialVersion) (needRoundUp : Bool) :
    parseVersionBestEffort U pv.text needRoundUp =
      .ok (release (if needRoundUp && pv.isPartial then pv.next else pv.floor), pv.isPartial) := by
  cases pv with
  | major x =>
    have hcount : x.text.count '.' = 0 := List.count_eq_zero.mpr x.dot_not_mem
    have hsplit : x.text.splitOn '.' = [x.text] := by
      have h := List.splitOn_intercalate '.'
        (show ∀ l ∈ [x.text], '.' ∉ l by simpa using x.dot_not_mem) (List.cons_ne_nil _ _)
      rwa [List.intercalate_singleton] at h
    rw [PartialVersion.text, parseVersionBestEffort, parseSemver_one_dot (by omega)]
    simp only [hsplit, x.parseNumber_text, x.addI64_value, bind, Except.bind, pure, Except.pure]
    cases needRoundUp <;> rfl
  | minor x y =>
    have hcount : (x.text ++ '.' :: y.text).count '.' = 1 := by
      rw [List.count_append, List.count_cons_self, List.count_eq_zero.mpr x.dot_not_mem,
        List.count_eq_zero.mpr y.dot_not_mem]
    have hsplit : (x.text ++ '.' :: y.text).splitOn '.' = [x.text, y.text] := by
      have h := List.splitOn_intercalate '.'
        (show ∀ l ∈ [x.text, y.text], '.' ∉ l by simpa using ⟨x.dot_not_mem, y.dot_not_mem⟩)
        (List.cons_ne_nil _ _)
      rwa [List.intercalate_cons_cons, List.intercalate_singleton, List.append_assoc] at h
    rw [PartialVersion.text, parseVersionBestEffort, parseSemver_one_dot (by omega)]
    simp only [hsplit, x.parseNumber_text, y.parseNumber_text, y.addI64_value, bind, Except.bind, pure,
      Except.pure]
    cases needRoundUp <;> rfl
  | bug x y z =>
    rw [parseVersionBestEffort, parseSemver_numbers]
    cases needRoundUp <;> rfl

end Versions

end NpmFollower.GhsaScraper
