import NpmFollower.SemverSpecSerialization.Spelling

/-! # Versions are printed and read back

A version prints as one of its spellings: without leading characters and zeros,
with the hyphen, and with the numbers among the tags in their shortest form.
-/

namespace NpmFollower.SemverSpecSerialization

open PostgresDb Regex Pattern

variable {U : Unicode}

section Numbers

theorem toDigits_mem (n : ℕ) : Nat.toDigits 10 n ∈ digits.lang :=
  mem_digits_iff.mpr ⟨Nat.toDigits_ne_nil,
    fun _ hc => Nat.isDigit_of_mem_toDigits (by decide) (by decide) hc⟩

theorem number_toDigits (n : ℕ) : number (Nat.toDigits 10 n) = n :=
  Nat.ofDigitChars_toDigits (by decide) (by decide)

theorem toList_repr_natCast (n : ℕ) : (Int.repr (n : ℤ)).toList = Nat.toDigits 10 n :=
  Nat.toList_repr

theorem toList_repr_negSucc (n : ℕ) :
    (Int.repr (Int.negSucc n)).toList = '-' :: Nat.toDigits 10 (n + 1) := by
  change ("-" ++ Nat.repr (n + 1)).toList = _
  rw [String.toList_append, Nat.toList_repr]
  rfl

/-- What is read is an `i64`. -/
theorem range_of_parseI64 {w : List Char} {n : ℤ} (h : parseI64 w = some n) :
    -(2 ^ 63) ≤ n ∧ n < 2 ^ 63 := by
  unfold parseI64 at h
  split at h
  · split_ifs at h with hd
    cases h
    omega
  · split_ifs at h with hd
    cases h
    omega
  · split_ifs at h with hd
    cases h
    omega

/-- An `i64` is read back. -/
theorem parseI64_repr {n : ℤ} (h : -(2 ^ 63) ≤ n ∧ n < 2 ^ 63) :
    parseI64 (Int.repr n).toList = some n := by
  cases n with
  | ofNat n =>
    have hlt : number (Nat.toDigits 10 n) < 2 ^ 63 := by
      rw [number_toDigits]
      simp only [Int.ofNat_eq_natCast] at h
      omega
    have hrepr : (Int.repr (Int.ofNat n)).toList = Nat.toDigits 10 n := toList_repr_natCast n
    rw [hrepr, parseI64_digits (toDigits_mem n), if_pos hlt, number_toDigits]
    rfl
  | negSucc n =>
    obtain ⟨hne, hdigits⟩ := mem_digits_iff.mp (toDigits_mem (n + 1))
    have hvalue : Nat.ofDigitChars 10 (Nat.toDigits 10 (n + 1)) 0 = n + 1 := number_toDigits (n + 1)
    rw [toList_repr_negSucc, parseI64, if_pos, hvalue]
    · rfl
    · refine ⟨hne, List.all_eq_true.mpr hdigits, ?_⟩
      rw [hvalue]
      omega

end Numbers

section Tags

/-- A tag prints as an identifier that is read as the tag. -/
theorem parsePrereleaseTag_toString {w : List Char} (hw : w ∈ (identifier U).lang) :
    (parsePrereleaseTag w).toString.toList ∈ (identifier U).lang ∧
      parsePrereleaseTag (parsePrereleaseTag w).toString.toList = parsePrereleaseTag w := by
  cases hn : parseI64 w with
  | none =>
    have htag : parsePrereleaseTag w = .string (String.ofList w) := by rw [parsePrereleaseTag, hn]
    have htext : (parsePrereleaseTag w).toString.toList = w := by
      rw [htag]
      exact String.toList_ofList
    rw [htext]
    exact ⟨hw, rfl⟩
  | some n =>
    have htag : parsePrereleaseTag w = .int n := by rw [parsePrereleaseTag, hn]
    have htext : (parsePrereleaseTag w).toString.toList = (Int.repr n).toList := by rw [htag]; rfl
    rw [htext]
    constructor
    · cases n with
      | ofNat n =>
        have hrepr : (Int.repr (Int.ofNat n)).toList = Nat.toDigits 10 n := toList_repr_natCast n
        rw [hrepr]
        exact mem_identifier_iff.mpr (Or.inl (mem_digits_iff.mp (toDigits_mem n)))
      | negSucc n =>
        rw [toList_repr_negSucc]
        refine mem_identifier_iff.mpr (Or.inr ⟨[], '-', _, rfl, by simp, by decide, ?_⟩)
        exact fun c hc => isTagChar_of_isDigit ((mem_digits_iff.mp (toDigits_mem (n + 1))).2 c hc)
    · rw [parsePrereleaseTag, parseI64_repr (range_of_parseI64 hn), htag]

theorem dot_not_mem_identifier {w : List Char} (hw : w ∈ (identifier U).lang) : '.' ∉ w :=
  not_mem_identifier hw (by decide) (by decide)

theorem parsePrereleaseTags_intercalate {piece : List Char} {pieces : List (List Char)}
    (h : ∀ v ∈ piece :: pieces, v ∈ (identifier U).lang) :
    parsePrereleaseTags (['.'].intercalate (piece :: pieces)) =
      (piece :: pieces).map parsePrereleaseTag := by
  rw [parsePrereleaseTags, List.splitOn_intercalate '.' (fun v hv => dot_not_mem_identifier (h v hv))
    (List.cons_ne_nil _ _)]

theorem toList_intercalate_dot (texts : List String) :
    (String.intercalate "." texts).toList = ['.'].intercalate (texts.map String.toList) :=
  String.toList_intercalate

/-- The tags of a prerelease print as a prerelease with the same tags. -/
theorem parsePrereleaseTags_toString {p : List Char} (hp : p ∈ (prerelease U).lang) :
    parsePrereleaseTags p ≠ [] ∧
    (String.intercalate "." ((parsePrereleaseTags p).map PrereleaseTag.toString)).toList ∈
        (prerelease U).lang ∧
      parsePrereleaseTags
          (String.intercalate "." ((parsePrereleaseTags p).map PrereleaseTag.toString)).toList =
        parsePrereleaseTags p := by
  obtain ⟨piece, pieces, hpieces, rfl⟩ := mem_prerelease_iff.mp hp
  let print (w : List Char) : List Char := (parsePrereleaseTag w).toString.toList
  have htexts : ((((piece :: pieces).map parsePrereleaseTag).map PrereleaseTag.toString).map
      String.toList) = print piece :: pieces.map print := by
    simp [print, Function.comp_def]
  have hprinted : ∀ v ∈ print piece :: pieces.map print, v ∈ (identifier U).lang := by
    refine List.forall_mem_cons.mpr
      ⟨(parsePrereleaseTag_toString (hpieces piece List.mem_cons_self)).1, ?_⟩
    intro v hv
    obtain ⟨w, hw, rfl⟩ := List.mem_map.mp hv
    exact (parsePrereleaseTag_toString (hpieces w (List.mem_cons_of_mem _ hw))).1
  rw [parsePrereleaseTags_intercalate hpieces, toList_intercalate_dot, htexts]
  refine ⟨List.cons_ne_nil _ _, mem_prerelease_iff.mpr ⟨_, _, hprinted, rfl⟩, ?_⟩
  rw [parsePrereleaseTags_intercalate hprinted, List.map_cons, List.map_cons, List.map_map]
  congr 1
  · exact (parsePrereleaseTag_toString (hpieces piece List.mem_cons_self)).2
  · apply List.map_congr_left
    intro w hw
    exact (parsePrereleaseTag_toString (hpieces w (List.mem_cons_of_mem _ hw))).2

/-- Build tags print as they are. -/
theorem parseBuildTags_toString {b : List Char} (hb : b ∈ build.lang) :
    parseBuildTags b ≠ [] ∧ (String.intercalate "." (parseBuildTags b)).toList = b := by
  obtain ⟨piece, pieces, hpieces, rfl⟩ := mem_build_iff.mp hb
  have hdot : ∀ v ∈ piece :: pieces, '.' ∉ v := fun v hv hmem => by
    have htag := (hpieces v hv).2 '.' hmem
    cases htag
  have hsplit : (['.'].intercalate (piece :: pieces)).splitOn '.' = piece :: pieces :=
    List.splitOn_intercalate '.' hdot (List.cons_ne_nil _ _)
  rw [parseBuildTags, hsplit, toList_intercalate_dot, List.map_map]
  refine ⟨by simp, ?_⟩
  congr 1
  rw [List.map_congr_left (g := id) fun v _ => by simp, List.map_id]

end Tags

section Versions

/-- The texts of the tags of a printed version. -/
def printedTags (tags : List PrereleaseTag) : Option (List Char) :=
  if tags.isEmpty then none
  else some (String.intercalate "." (tags.map PrereleaseTag.toString)).toList

def printedBuild (tags : List String) : Option (List Char) :=
  if tags.isEmpty then none else some (String.intercalate "." tags).toList

/-- The text behind the numbers of a printed version. -/
def tagsText : Option (List Char) → Option (List Char) → List Char
  | none, b => buildText b
  | some p, b => '-' :: (p ++ buildText b)

theorem toList_toString {s : Semver} {n1 n2 n3 : ℕ} (h1 : s.major = n1) (h2 : s.minor = n2)
    (h3 : s.bug = n3) : s.toString.toList = Nat.toDigits 10 n1 ++ '.' :: (Nat.toDigits 10 n2 ++
      '.' :: (Nat.toDigits 10 n3 ++ tagsText (printedTags s.prerelease) (printedBuild s.build))) := by
  have hdot : ".".toList = ['.'] := rfl
  have hhyphen : "-".toList = ['-'] := rfl
  have hplus : "+".toList = ['+'] := rfl
  rw [Semver.toString, h1, h2, h3, printedTags, printedBuild]
  split_ifs <;>
    simp only [String.toList_append, toList_repr_natCast, hdot, hhyphen, hplus, tagsText, buildText,
      String.toList_empty, List.append_nil, List.append_assoc,
      List.cons_append, List.nil_append]

theorem exec_tagsText {p b : Option (List Char)} (hp : ∀ v ∈ p, v ∈ (prerelease U).lang)
    (hb : ∀ v ∈ b, v ∈ build.lang) :
    (tagsPart U).exec (tagsText p b) = some (buildCaptures b ++ prereleaseCaptures p) := by
  cases p with
  | none =>
    rw [tagsText, exec_tagsPart_build hb, prereleaseCaptures, List.append_nil]
  | some p => exact exec_tagsPart_hyphen (hp p rfl) hb

theorem head_tagsText (p b : Option (List Char)) : ∀ c ∈ (tagsText p b).head?, c.isDigit = false := by
  cases p <;> cases b <;> simp [tagsText, buildText]

/-- The spelling of a printed version. -/
def printedSpelling (s : Semver)
    (hp : ∀ v ∈ printedTags s.prerelease, v ∈ (prerelease U).lang)
    (hb : ∀ v ∈ printedBuild s.build, v ∈ build.lang) : Spelling U where
  leading := []
  major := Nat.toDigits 10 s.major.toNat
  minor := Nat.toDigits 10 s.minor.toNat
  bug := Nat.toDigits 10 s.bug.toNat
  prerelease := printedTags s.prerelease
  build := printedBuild s.build
  leading_isLeading _ hc := by cases hc
  major_mem := toDigits_mem _
  minor_mem := toDigits_mem _
  bug_mem := toDigits_mem _
  prerelease_mem := hp
  build_mem := hb

/-- No character of a printed version is a space. -/
theorem isWhitespace_tagsText {p b : Option (List Char)} (hp : ∀ v ∈ p, v ∈ (prerelease U).lang)
    (hb : ∀ v ∈ b, v ∈ build.lang) : ∀ c ∈ tagsText p b, isWhitespace c = false := by
  have hprerelease {v : List Char} (hv : v ∈ (prerelease U).lang) :
      ∀ c ∈ v, isWhitespace c = false := by
    intro c hc
    obtain ⟨piece, pieces, hpieces, rfl⟩ := mem_prerelease_iff.mp hv
    rcases mem_intercalate hc with rfl | ⟨w, hw, hmem⟩
    · decide
    · rcases decimal_or_isTagChar (hpieces w hw) hmem with hdec | htag
      · exact U.decimal_whitespace c hdec
      · exact isWhitespace_of_isTagChar htag
  have hbuild : ∀ c ∈ buildText b, isWhitespace c = false := by
    intro c hc
    cases b with
    | none => cases hc
    | some v =>
      rcases List.mem_cons.mp hc with rfl | hc
      · decide
      · obtain ⟨piece, pieces, hpieces, rfl⟩ := mem_build_iff.mp (hb v rfl)
        rcases mem_intercalate hc with rfl | ⟨w, hw, hmem⟩
        · decide
        · exact isWhitespace_of_isTagChar ((hpieces w hw).2 c hmem)
  intro c hc
  cases p with
  | none => exact hbuild c hc
  | some v =>
    rcases List.mem_cons.mp hc with rfl | hc
    · decide
    · exact (List.mem_append.mp hc).elim (hprerelease (hp v rfl) c) (hbuild c)

/-- A version with tags that are printed as tags is read back. -/
theorem parseSemver_toString {s : Semver} {n1 n2 n3 : ℕ} (h1 : s.major = n1) (h2 : s.minor = n2)
    (h3 : s.bug = n3) (hp : ∀ v ∈ printedTags s.prerelease, v ∈ (prerelease U).lang)
    (hb : ∀ v ∈ printedBuild s.build, v ∈ build.lang) :
    parseSemver U s.toString = (printedSpelling s hp hb).version := by
  have hmem (n : ℕ) : ∀ c ∈ Nat.toDigits 10 n, isWhitespace c = false := fun c hc =>
    isWhitespace_of_isDigit ((mem_digits_iff.mp (toDigits_mem n)).2 c hc)
  have hspace : ∀ c ∈ s.toString.toList, isWhitespace c = false := by
    rw [toList_toString h1 h2 h3]
    intro c hc
    simp only [List.mem_append, List.mem_cons] at hc
    rcases hc with hc | rfl | hc | rfl | hc | hc
    · exact hmem _ c hc
    · decide
    · exact hmem _ c hc
    · decide
    · exact hmem _ c hc
    · exact isWhitespace_tagsText hp hb c hc
  apply Spelling.parseSemver_eq
  have hstart : s.toString.toList = [] ++ s.toString.toList := rfl
  rw [trim_eq_self (fun c hc => hspace c (List.mem_of_mem_head? hc))
    fun c hc => hspace c (List.mem_of_getLast? hc), hstart, toList_toString h1 h2 h3,
    exec_semverRegex (by simp) (toDigits_mem n1) (toDigits_mem n2),
    exec_bugPart_of_some (toDigits_mem n3) (head_tagsText _ _) (exec_tagsText hp hb)]
  simp only [Spelling.captures, printedSpelling, h1, h2, h3, Int.toNat_natCast, Option.map_some]

/-- The tags that are read of a spelling, printed and read again. -/
theorem printedTags_read {p : Option (List Char)} (hp : ∀ v ∈ p, v ∈ (prerelease U).lang) :
    (∀ v ∈ printedTags ((p.map parsePrereleaseTags).getD []), v ∈ (prerelease U).lang) ∧
      ((printedTags ((p.map parsePrereleaseTags).getD [])).map parsePrereleaseTags).getD [] =
        (p.map parsePrereleaseTags).getD [] := by
  cases p with
  | none => exact ⟨fun v hv => (Option.not_mem_none v hv).elim, rfl⟩
  | some p =>
    obtain ⟨hne, hmem, hread⟩ := parsePrereleaseTags_toString (hp p rfl)
    rw [Option.map_some, Option.getD_some, printedTags, if_neg (by simpa using hne)]
    exact ⟨fun v hv => by cases hv; exact hmem, hread⟩

theorem printedBuild_read {b : Option (List Char)} (hb : ∀ v ∈ b, v ∈ build.lang) :
    (∀ v ∈ printedBuild ((b.map parseBuildTags).getD []), v ∈ build.lang) ∧
      ((printedBuild ((b.map parseBuildTags).getD [])).map parseBuildTags).getD [] =
        (b.map parseBuildTags).getD [] := by
  cases b with
  | none => exact ⟨fun v hv => (Option.not_mem_none v hv).elim, rfl⟩
  | some b =>
    obtain ⟨hne, hprint⟩ := parseBuildTags_toString (hb b rfl)
    rw [Option.map_some, Option.getD_some, printedBuild, if_neg (by simpa using hne), hprint]
    exact ⟨fun v hv => by cases hv; exact hb b rfl, rfl⟩

theorem parseSemver_read_toString {S : Spelling U} (h1 : FitsI64 S.major) (h2 : FitsI64 S.minor)
    (h3 : FitsI64 S.bug) : parseSemver U S.read.toString = .ok S.read := by
  obtain ⟨hp, hpread⟩ := printedTags_read S.prerelease_mem
  obtain ⟨hb, hbread⟩ := printedBuild_read S.build_mem
  have hfits {d : List Char} (h : FitsI64 d) : FitsI64 (Nat.toDigits 10 (number d : ℤ).toNat) := by
    rwa [FitsI64, Int.toNat_natCast, number_toDigits]
  rw [parseSemver_toString (s := S.read) rfl rfl rfl hp hb,
    Spelling.version_of_fits _ (hfits h1) (hfits h2) (hfits h3)]
  have hnumber (d : List Char) : (number (Nat.toDigits 10 (number d : ℤ).toNat) : ℤ) = number d := by
    rw [Int.toNat_natCast, number_toDigits]
  congr 1
  simp only [Spelling.read, printedSpelling, hnumber, hpread, hbread]

end Versions

/-- What is read of a text is printed so that it is read back; so two texts that are read as
versions with one printed form are read as one version. -/
theorem parseSemver_printed {x : String} {s : Semver} (h : parseSemver U x = .ok s) :
    parseSemver U s.toString = .ok s ∧
      ∀ y s', parseSemver U y = .ok s' → s'.toString = s.toString → s' = s := by
  have hread {y : String} {s : Semver} (h : parseSemver U y = .ok s) :
      parseSemver U s.toString = .ok s := by
    obtain ⟨m, hm⟩ := exists_of_parseSemver h
    obtain ⟨S, rest, rfl, -⟩ := exists_spelling hm
    rw [S.parseSemver_eq hm] at h
    obtain ⟨h1, h2, h3, rfl⟩ := Spelling.fits_of_version h
    exact parseSemver_read_toString h1 h2 h3
  refine ⟨hread h, ?_⟩
  intro y s' hs' htext
  have hsame := hread hs'
  rw [htext, hread h, Except.ok.injEq] at hsame
  exact hsame.symm

/-- A text with a leading letter and leading zeros, without the hyphen. -/
theorem parseSemver_printed_rc : parseSemver asciiDigits "1.2.3-rc.1+x" =
    .ok ⟨1, 2, 3, [.string "rc", .int 1], ["x"]⟩ :=
  (parseSemver_printed (U := asciiDigits) (x := "v1.02.3rc.01+x")
    (s := ⟨1, 2, 3, [.string "rc", .int 1], ["x"]⟩) (by decide +kernel)).1

end NpmFollower.SemverSpecSerialization
