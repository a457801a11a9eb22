import NpmFollower.PostgresDb.CustomTypes
import NpmFollower.Library.Regex

/-! # Parsing versions

A version is matched by one regular expression, more lenient than that of npm:
spaces, `v` and `=` may come first, and the hyphen before the prerelease may be
missing. The captured numbers and tags are read as `i64` where they fit.
-/

namespace NpmFollower.SemverSpecSerialization

open PostgresDb Regex Pattern

/-- The property `White_Space` of Unicode, which `\s` matches and `trim` removes. -/
def isWhitespace (c : Char) : Bool :=
  (9 ≤ c.toNat && c.toNat ≤ 13) || (0x2000 ≤ c.toNat && c.toNat ≤ 0x200a) ||
    [0x20, 0x85, 0xa0, 0x1680, 0x2028, 0x2029, 0x202f, 0x205f, 0x3000].contains c.toNat

/-- The decimal digits of Unicode, which `\d` matches. -/
structure Unicode where
  decimal : Char → Bool
  decimal_ascii : ∀ c : Char, c.val < 128 → decimal c = c.isDigit
  decimal_whitespace : ∀ c : Char, decimal c = true → isWhitespace c = false

def trim (s : List Char) : List Char :=
  ((s.dropWhile isWhitespace).reverse.dropWhile isWhitespace).reverse

/-- `str::parse::<i64>`: a sign may come before the digits; `none` are all the errors. -/
def parseI64 : List Char → Option ℤ
  | '-' :: ds =>
    if ds ≠ [] ∧ ds.all Char.isDigit ∧ Nat.ofDigitChars 10 ds 0 ≤ 2 ^ 63 then
      some (-(Nat.ofDigitChars 10 ds 0)) else none
  | '+' :: ds =>
    if ds ≠ [] ∧ ds.all Char.isDigit ∧ Nat.ofDigitChars 10 ds 0 < 2 ^ 63 then
      some (Nat.ofDigitChars 10 ds 0) else none
  | ds =>
    if ds ≠ [] ∧ ds.all Char.isDigit ∧ Nat.ofDigitChars 10 ds 0 < 2 ^ 63 then
      some (Nat.ofDigitChars 10 ds 0) else none

inductive ParseSemverError where
  | majorMinorBugParseIntError
  | regexMatchFailed
deriving DecidableEq

def parsePrereleaseTag (s : List Char) : PrereleaseTag :=
  match parseI64 s with
  | some n => .int n
  | none => .string (String.ofList s)

def parsePrereleaseTags (s : List Char) : List PrereleaseTag :=
  (s.splitOn '.').map parsePrereleaseTag

def parseBuildTags (s : List Char) : List String := (s.splitOn '.').map String.ofList

section Grammar

/-- `[v=\s]` -/
def isLeading (c : Char) : Bool := c == 'v' || c == '=' || isWhitespace c

/-- `[a-zA-Z-]` -/
def isLetter (c : Char) : Bool := c.isAlpha || c == '-'

/-- `[a-zA-Z0-9-]` -/
def isTagChar (c : Char) : Bool := c.isAlphanum || c == '-'

def literal (c : Char) : Pattern Char := cls fun d => d == c

/-- `[0-9]+` -/
def digits : Pattern Char := plus (cls Char.isDigit)

/-- `[0-9]+|\d*[a-zA-Z-][a-zA-Z0-9-]*` -/
def identifier (U : Unicode) : Pattern Char :=
  alt digits (seq (star (cls U.decimal)) (seq (cls isLetter) (star (cls isTagChar))))

def prerelease (U : Unicode) : Pattern Char := sepBy '.' (identifier U)

def build : Pattern Char := sepBy '.' (plus (cls isTagChar))

/-- `(?:\+(..))?` -/
def buildPart : Pattern Char := opt (seq (literal '+') (group 5 build))

/-- What follows the three numbers. -/
def tagsPart (U : Unicode) : Pattern Char :=
  seq (opt (seq (opt (literal '-')) (group 4 (prerelease U)))) buildPart

/-- The third number and what follows it. -/
def bugPart (U : Unicode) : Pattern Char := seq (group 3 digits) (tagsPart U)

/-- The regular expression of `parse_semver`. -/
def semverRegex (U : Unicode) : Pattern Char :=
  seq (star (cls isLeading)) (seq (group 1 digits) (seq (literal '.')
    (seq (group 2 digits) (seq (literal '.') (bugPart U)))))

end Grammar

/-- `m_i.parse()?` -/
def parseNumber (s : List Char) : Except ParseSemverError ℤ :=
  (parseI64 s).elim (.error .majorMinorBugParseIntError) .ok

/-- The groups one to three are in every match. -/
def text (m : Captures Char) (n : ℕ) : List Char := (m.lookup n).getD []

def parseSemver (U : Unicode) (vStr : String) : Except ParseSemverError Semver := do
  let m ← ((semverRegex U).exec (trim vStr.toList)).elim (.error .regexMatchFailed) .ok
  let m1 ← parseNumber (text m 1)
  let m2 ← parseNumber (text m 2)
  let m3 ← parseNumber (text m 3)
  return {
    major := m1, minor := m2, bug := m3
    prerelease := ((m.lookup 4).map parsePrereleaseTags).getD []
    build := ((m.lookup 5).map parseBuildTags).getD [] }

end NpmFollower.SemverSpecSerialization
