import NpmFollower.SemverSpecSerialization.Spelling

/-! # Versions whose numbers are cut

The expression gives up the last digit of the third number when a dot follows
it, and reads that digit as the first tag of a prerelease without a hyphen.
-/

namespace NpmFollower.SemverSpecSerialization

open PostgresDb Regex Pattern

variable (U : Unicode)

/-- The numbers of an accepted text are read from whole runs of digits: no digit stands before the
first one or behind the third one, and between them stand the dots. -/
def NumbersWhole (x : String) : Prop :=
  ∀ s, parseSemver U x = .ok s → ∃ m before after,
    (semverRegex U).exec (trim x.toList) = some m ∧
    parseNumber (text m 1) = .ok s.major ∧ parseNumber (text m 2) = .ok s.minor ∧
    parseNumber (text m 3) = .ok s.bug ∧
    trim x.toList =
      before ++ (text m 1 ++ '.' :: (text m 2 ++ '.' :: text m 3)) ++ after ∧
    (∀ n ∈ [1, 2, 3], text m n ∈ digits.lang) ∧ (∀ c ∈ before, isLeading c = true) ∧
    ∀ c ∈ after.head?, c.isDigit = false

/-- Four or more groups of digits with dots between them. -/
def FourNumbers (x : String) : Prop :=
  ∃ groups : List (List Char), 4 ≤ groups.length ∧ (∀ g ∈ groups, g ∈ digits.lang) ∧
    x.toList = ['.'].intercalate groups

/-- Parsing a text splits no number, and accepts no four numbers. -/
def SplitsNoNumber (x : String) : Prop :=
  NumbersWhole U x ∧ (FourNumbers x → ∃ e, parseSemver U x = .error e)

/-- The third number has more than one digit, and a dot with tags follows it. The numbers without
the last digit fit. -/
def DotAfterBug (x : String) : Prop :=
  ∃ (leading major minor bug : List Char) (d : Char) (rest : List Char),
    trim x.toList = leading ++ (major ++ '.' :: (minor ++ '.' :: (bug ++ d :: rest))) ∧
    (∀ c ∈ leading, isLeading c = true) ∧ major ∈ digits.lang ∧ minor ∈ digits.lang ∧
    bug ∈ digits.lang ∧ d.isDigit = true ∧ SplitTail U rest ∧
    FitsI64 major ∧ FitsI64 minor ∧ FitsI64 bug

variable {U}

theorem SplitTail.head {w : List Char} (h : SplitTail U w) : ∀ c ∈ w.head?, c.isDigit = false := by
  obtain ⟨p, b, -, -, rfl⟩ := h
  intro c hc
  cases hc
  rfl

/-- The numbers of a text are at one place only. -/
theorem numbers_unique {a a' r r' : List Char} {d1 d2 d1' d2' : List Char}
    (h : a ++ (d1 ++ '.' :: (d2 ++ '.' :: r)) = a' ++ (d1' ++ '.' :: (d2' ++ '.' :: r')))
    (ha : ∀ c ∈ a, isLeading c = true) (ha' : ∀ c ∈ a', isLeading c = true)
    (h1 : d1 ∈ digits.lang) (h1' : d1' ∈ digits.lang) (h2 : d2 ∈ digits.lang)
    (h2' : d2' ∈ digits.lang) : d1 = d1' ∧ d2 = d2' ∧ r = r' := by
  have hleading {d w : List Char} (hd : d ∈ digits.lang) :
      ∀ c ∈ (d ++ w).head?, isLeading c = false := by
    obtain ⟨c, v, hc, hdigit⟩ := head_of_mem_digits (w := w) hd
    rw [hc]
    exact fun x hx => by cases hx; exact isLeading_of_isDigit hdigit
  have hdot {w : List Char} : ∀ c ∈ ('.' :: w).head?, c.isDigit = false :=
    fun c hc => by cases hc; rfl
  have hstart := eq_of_append_eq_append h ha ha' (hleading h1) (hleading h1')
  have hminor := eq_of_append_eq_append hstart (mem_digits_iff.mp h1).2 (mem_digits_iff.mp h1').2
    hdot hdot
  rw [hminor] at hstart
  rw [List.cons.injEq] at hminor
  have hbug := eq_of_append_eq_append hminor.2 (mem_digits_iff.mp h2).2 (mem_digits_iff.mp h2').2
    hdot hdot
  have hend := hminor.2
  rw [hbug] at hend
  rw [List.cons.injEq] at hbug
  exact ⟨List.append_cancel_right hstart, List.append_cancel_right hend, hbug.2⟩

/-- Where a dot follows a third number of several digits, the last digit is lost. -/
theorem DotAfterBug.not_numbersWhole {x : String} (h : DotAfterBug U x) : ¬NumbersWhole U x := by
  obtain ⟨leading, major, minor, bug, d, rest, hx, hleading, h1, h2, h3, hd, htail, hf1, hf2, hf3⟩ := h
  obtain ⟨e, he, hexec⟩ := exec_bugPart_of_splitTail h3 hd htail.head htail
  obtain ⟨p, b, hp, hb, rfl⟩ := exists_of_exec_tagsPart he
  let S : Spelling U := ⟨leading, major, minor, bug, p, b, hleading, h1, h2, h3, hp, hb⟩
  have hmatch : (semverRegex U).exec (trim x.toList) = some S.captures := by
    rw [hx, exec_semverRegex hleading h1 h2, hexec]
    rfl
  have hparse : parseSemver U x = .ok S.read := by
    rw [S.parseSemver_eq hmatch, S.version_of_fits hf1 hf2 hf3]
  intro hwhole
  obtain ⟨m, before, after, hm, -, -, -, htext, -, hbefore, hafter⟩ := hwhole _ hparse
  rw [hmatch, Option.some.injEq] at hm
  subst hm
  obtain ⟨ht1, ht2, ht3⟩ := S.text_captures
  rw [ht1, ht2, ht3, hx] at htext
  have happ : before ++ (major ++ '.' :: (minor ++ '.' :: bug)) ++ after =
      before ++ (major ++ '.' :: (minor ++ '.' :: (bug ++ after))) := by simp
  have hsame := (numbers_unique (htext.trans happ) hleading hbefore h1 h1 h2 h2).2.2
  have hrest : d :: rest = after := List.append_cancel_left hsame
  rw [← hrest] at hafter
  rw [hafter d rfl] at hd
  cases hd

/-- Elsewhere the whole run of the third number is matched. -/
theorem exists_whole {x : String} (h : ¬DotAfterBug U x) {s : Semver}
    (hs : parseSemver U x = .ok s) : ∃ (S : Spelling U) (rest : List Char),
      (semverRegex U).exec (trim x.toList) = some S.captures ∧ S.version = .ok s ∧
      trim x.toList = S.numbers ++ rest ∧ rest ∈ (tagsPart U).lang ∧
      ∀ c ∈ rest.head?, c.isDigit = false := by
  obtain ⟨m, hm⟩ := exists_of_parseSemver hs
  obtain ⟨S, rest, rfl, htext, hmem, hrest⟩ := exists_spelling hm
  rw [S.parseSemver_eq hm] at hs
  obtain ⟨hf1, hf2, hf3, -⟩ := Spelling.fits_of_version hs
  rcases hrest with hwhole | ⟨d, z, rfl, hd, -, htail⟩
  · exact ⟨S, rest, hm, hs, htext, hmem, hwhole⟩
  · refine absurd ⟨S.leading, S.major, S.minor, S.bug, d, z, ?_, S.leading_isLeading, S.major_mem,
      S.minor_mem, S.bug_mem, hd, htail, hf1, hf2, hf3⟩ h
    rw [htext]
    simp [Spelling.numbers]

theorem numbersWhole_of_not_dotAfterBug {x : String} (h : ¬DotAfterBug U x) : NumbersWhole U x := by
  intro s hs
  obtain ⟨S, rest, hm, hversion, htext, -, hwhole⟩ := exists_whole h hs
  obtain ⟨ht1, ht2, ht3⟩ := S.text_captures
  obtain ⟨hf1, hf2, hf3, rfl⟩ := Spelling.fits_of_version hversion
  refine ⟨S.captures, S.leading, rest, hm, ?_, ?_, ?_, by rw [ht1, ht2, ht3, htext]; rfl, ?_,
    S.leading_isLeading, hwhole⟩
  · rw [ht1, parseNumber_of_fits S.major_mem hf1]
    rfl
  · rw [ht2, parseNumber_of_fits S.minor_mem hf2]
    rfl
  · rw [ht3, parseNumber_of_fits S.bug_mem hf3]
    rfl
  simp only [List.forall_mem_cons, ht1, ht2, ht3]
  exact ⟨S.major_mem, S.minor_mem, S.bug_mem, fun _ hn => by cases hn⟩

theorem mem_identifier_of_mem_digits {d : List Char} (hd : d ∈ digits.lang) :
    d ∈ (identifier U).lang := mem_identifier_iff.mpr (Or.inl (mem_digits_iff.mp hd))

/-- Four numbers begin with three numbers and a dot. -/
theorem FourNumbers.exists_splitTail {x : String} (h : FourNumbers x) (U : Unicode) :
    ∃ d1 d2 d3 w, d1 ∈ digits.lang ∧ d2 ∈ digits.lang ∧ d3 ∈ digits.lang ∧ SplitTail U w ∧
      x.toList = d1 ++ '.' :: (d2 ++ '.' :: (d3 ++ w)) ∧
        ∀ c ∈ x.toList, c.isDigit = true ∨ c = '.' := by
  obtain ⟨groups, hlen, hgroups, hx⟩ := h
  obtain ⟨d1, d2, d3, d4, groups, rfl⟩ : ∃ d1 d2 d3 d4 gs, groups = d1 :: d2 :: d3 :: d4 :: gs := by
    match groups, hlen with
    | d1 :: d2 :: d3 :: d4 :: gs, _ => exact ⟨d1, d2, d3, d4, gs, rfl⟩
  simp only [List.forall_mem_cons] at hgroups
  obtain ⟨h1, h2, h3, h4, hgs⟩ := hgroups
  have hrest : ∀ v ∈ d4 :: groups, v ∈ (identifier U).lang :=
    List.forall_mem_cons.mpr ⟨mem_identifier_of_mem_digits h4,
      fun v hv => mem_identifier_of_mem_digits (hgs v hv)⟩
  refine ⟨d1, d2, d3, '.' :: ['.'].intercalate (d4 :: groups), h1, h2, h3,
    ⟨['.'].intercalate (d4 :: groups), none, mem_prerelease_iff.mpr ⟨d4, groups, hrest, rfl⟩,
      by simp, by simp [buildText]⟩, ?_, ?_⟩
  · rw [hx, List.intercalate_cons_cons, List.intercalate_cons_cons, List.intercalate_cons_cons]
    simp
  · intro c hc
    rw [hx] at hc
    rcases mem_intercalate hc with rfl | ⟨v, hv, hmem⟩
    · exact Or.inr rfl
    · left
      simp only [List.mem_cons] at hv
      rcases hv with rfl | rfl | rfl | rfl | hv
      · exact (mem_digits_iff.mp h1).2 c hmem
      · exact (mem_digits_iff.mp h2).2 c hmem
      · exact (mem_digits_iff.mp h3).2 c hmem
      · exact (mem_digits_iff.mp h4).2 c hmem
      · exact (mem_digits_iff.mp (hgs v hv)).2 c hmem

theorem FourNumbers.error {x : String} (h : FourNumbers x) (hdot : ¬DotAfterBug U x) :
    ∃ e, parseSemver U x = .error e := by
  cases hparse : parseSemver U x with
  | error e => exact ⟨e, rfl⟩
  | ok s =>
    obtain ⟨d1, d2, d3, w, h1, h2, h3, htail, hx, hchars⟩ := h.exists_splitTail U
    obtain ⟨S, rest, -, -, htext, hmem, hrest⟩ := exists_whole hdot hparse
    have hspace : ∀ c ∈ x.toList, isWhitespace c = false := by
      intro c hc
      rcases hchars c hc with hdigit | rfl
      · exact isWhitespace_of_isDigit hdigit
      · decide
    rw [trim_eq_self (fun c hc => hspace c (List.mem_of_mem_head? hc))
      fun c hc => hspace c (List.mem_of_getLast? hc)] at htext
    have happ : S.numbers ++ rest =
        S.leading ++ (S.major ++ '.' :: (S.minor ++ '.' :: (S.bug ++ rest))) := by
      simp [Spelling.numbers]
    have hstart : x.toList = [] ++ (d1 ++ '.' :: (d2 ++ '.' :: (d3 ++ w))) := hx
    have hsame := (numbers_unique (hstart.symm.trans (htext.trans happ)) (by simp)
      S.leading_isLeading h1 S.major_mem h2 S.minor_mem).2.2
    have hw : w = rest := eq_of_append_eq_append hsame (mem_digits_iff.mp h3).2
      (mem_digits_iff.mp S.bug_mem).2 htail.head hrest
    rw [hw] at htail
    exact absurd hmem htail.not_mem

/-- A number is split exactly when the third one has several digits and a dot with tags behind. -/
theorem splitsNoNumber_iff (U : Unicode) (x : String) : SplitsNoNumber U x ↔ ¬DotAfterBug U x := by
  constructor
  · rintro ⟨hwhole, -⟩ hdot
    exact hdot.not_numbersWhole hwhole
  · intro hdot
    exact ⟨numbersWhole_of_not_dotAfterBug hdot, fun hfour => hfour.error hdot⟩

/-- Four numbers are accepted when the third one has two digits. -/
theorem not_splitsNoNumber_fourNumbers : ¬SplitsNoNumber asciiDigits "1.2.34.5" := by
  rintro ⟨-, hfour⟩
  obtain ⟨e, he⟩ := hfour ⟨[['1'], ['2'], ['3', '4'], ['5']], by decide,
    by
      intro g hg
      simp only [List.mem_cons, List.not_mem_nil, or_false] at hg
      rcases hg with rfl | rfl | rfl | rfl <;> 
        exact mem_digits_iff.mpr ⟨List.cons_ne_nil _ _, List.all_eq_true.mp (by decide)⟩,
    by decide⟩
  have hok : parseSemver asciiDigits "1.2.34.5" = .ok ⟨1, 2, 3, [.int 4, .int 5], []⟩ := by
    decide +kernel
  rw [hok] at he
  cases he

end NpmFollower.SemverSpecSerialization
