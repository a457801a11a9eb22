import NpmFollower.SemverSpecSerialization.ParseSemver

/-! # What the version expression matches

The parts of the expression by the texts they match. The two leading numbers
end at a dot, so only the third number can give up digits: when its whole run
is followed by something that is no tag, the last digit may begin one.
-/

namespace NpmFollower.SemverSpecSerialization

open PostgresDb Regex Pattern

theorem toNat_of_isDigit {c : Char} (h : c.isDigit = true) : 48 ≤ c.toNat ∧ c.toNat ≤ 57 := by
  simp only [Char.isDigit, Bool.and_eq_true, decide_eq_true_eq, ge_iff_le,
    UInt32.le_iff_toNat_le] at h
  exact h

theorem isWhitespace_of_isDigit {c : Char} (h : c.isDigit = true) : isWhitespace c = false := by
  have hnat := toNat_of_isDigit h
  simp [isWhitespace]
  omega

/-- The decimal digits of ASCII. -/
def asciiDigits : Unicode where
  decimal := Char.isDigit
  decimal_ascii _ _ := rfl
  decimal_whitespace _ := isWhitespace_of_isDigit

theorem isTagChar_of_isDigit {c : Char} (h : c.isDigit = true) : isTagChar c = true := by
  simp [isTagChar, Char.isAlphanum, h]

theorem isTagChar_of_isLetter {c : Char} (h : isLetter c = true) : isTagChar c = true := by
  simp only [isLetter, Bool.or_eq_true] at h
  simp only [isTagChar, Char.isAlphanum, Bool.or_eq_true]
  exact h.imp Or.inl id

theorem isWhitespace_of_isTagChar {c : Char} (h : isTagChar c = true) : isWhitespace c = false := by
  have hcases : (c.isAlpha = true ∨ c.isDigit = true) ∨ c = '-' := by
    simpa [isTagChar, Char.isAlphanum] using h
  rcases hcases with (halpha | hdigit) | rfl
  · simp only [Char.isAlpha, Char.isUpper, Char.isLower, Bool.or_eq_true, Bool.and_eq_true,
      decide_eq_true_eq, ge_iff_le, UInt32.le_iff_toNat_le] at halpha
    have hnat : (65 ≤ c.toNat ∧ c.toNat ≤ 90) ∨ (97 ≤ c.toNat ∧ c.toNat ≤ 122) := halpha
    simp [isWhitespace]
    omega
  · exact isWhitespace_of_isDigit hdigit
  · decide

variable (U : Unicode)

theorem Unicode.decimal_of_isDigit {c : Char} (h : c.isDigit = true) : U.decimal c = true := by
  rw [U.decimal_ascii, h]
  simp only [Char.isDigit, Bool.and_eq_true, decide_eq_true_eq] at h
  exact UInt32.lt_of_le_of_lt h.2 (by decide)

section Identifiers

variable {U}

theorem mem_digits_iff {w : List Char} :
    w ∈ digits.lang ↔ w ≠ [] ∧ ∀ c ∈ w, c.isDigit = true := mem_lang_plus_cls _ _

theorem mem_identifier_iff {w : List Char} : w ∈ (identifier U).lang ↔
    (w ≠ [] ∧ ∀ c ∈ w, c.isDigit = true) ∨ ∃ a b c, w = a ++ b :: c ∧
      (∀ x ∈ a, U.decimal x = true) ∧ isLetter b = true ∧ ∀ x ∈ c, isTagChar x = true := by
  rw [identifier, lang, Language.mem_add, mem_digits_iff]
  apply or_congr_right
  simp only [lang, Language.mem_mul]
  constructor
  · rintro ⟨a, ha, _, ⟨_, ⟨b, hb, rfl⟩, c, hc, rfl⟩, rfl⟩
    exact ⟨a, b, c, rfl, (mem_lang_star_cls _ _).mp ha, hb, (mem_lang_star_cls _ _).mp hc⟩
  · rintro ⟨a, b, c, rfl, ha, hb, hc⟩
    exact ⟨a, (mem_lang_star_cls _ _).mpr ha, b :: c,
      ⟨[b], ⟨b, hb, rfl⟩, c, (mem_lang_star_cls _ _).mpr hc, rfl⟩, rfl⟩

theorem ne_nil_of_mem_identifier {w : List Char} (hw : w ∈ (identifier U).lang) : w ≠ [] := by
  rcases mem_identifier_iff.mp hw with ⟨hne, -⟩ | ⟨a, b, c, rfl, -⟩
  · exact hne
  · simp

/-- The characters of an identifier. -/
theorem decimal_or_isTagChar {w : List Char} (hw : w ∈ (identifier U).lang) {x : Char} (hx : x ∈ w) :
    U.decimal x = true ∨ isTagChar x = true := by
  rcases mem_identifier_iff.mp hw with ⟨-, hdigits⟩ | ⟨a, b, c, rfl, ha, hb, hc⟩
  · exact Or.inr (isTagChar_of_isDigit (hdigits x hx))
  · rcases List.mem_append.mp hx with hmem | hmem
    · exact Or.inl (ha x hmem)
    · rcases List.mem_cons.mp hmem with rfl | hmem
      · exact Or.inr (isTagChar_of_isLetter hb)
      · exact Or.inr (hc x hmem)

theorem not_mem_identifier {w : List Char} (hw : w ∈ (identifier U).lang) {x : Char}
    (hascii : x.val < 128) (hx : isTagChar x = false) : x ∉ w := by
  intro hmem
  rcases decimal_or_isTagChar hw hmem with hdec | htag
  · rw [U.decimal_ascii x hascii] at hdec
    rw [isTagChar_of_isDigit hdec] at hx
    cases hx
  · rw [htag] at hx
    cases hx

theorem mem_prerelease_iff {w : List Char} : w ∈ (prerelease U).lang ↔
    ∃ piece pieces, (∀ v ∈ piece :: pieces, v ∈ (identifier U).lang) ∧
      w = ['.'].intercalate (piece :: pieces) := mem_lang_sepBy _ _ _

theorem mem_build_iff {w : List Char} : w ∈ build.lang ↔
    ∃ piece pieces, (∀ v ∈ piece :: pieces, v ≠ [] ∧ ∀ c ∈ v, isTagChar c = true) ∧
      w = ['.'].intercalate (piece :: pieces) := by
  rw [build, mem_lang_sepBy]
  simp only [mem_lang_plus_cls]

theorem mem_intercalate {x y : Char} {piece : List Char} {pieces : List (List Char)}
    (h : x ∈ [y].intercalate (piece :: pieces)) : x = y ∨ ∃ v ∈ piece :: pieces, x ∈ v := by
  rw [intercalate_eq_append_flatten] at h
  rcases List.mem_append.mp h with hfirst | hrest
  · exact Or.inr ⟨piece, List.mem_cons_self, hfirst⟩
  · obtain ⟨chunk, hchunk, hx⟩ := List.mem_flatten.mp hrest
    obtain ⟨v, hv, rfl⟩ := List.mem_map.mp hchunk
    rcases List.mem_cons.mp hx with rfl | hx
    · exact Or.inl rfl
    · exact Or.inr ⟨v, List.mem_cons_of_mem _ hv, hx⟩

theorem plus_not_mem_prerelease {w : List Char} (hw : w ∈ (prerelease U).lang) : '+' ∉ w := by
  obtain ⟨piece, pieces, hpieces, rfl⟩ := mem_prerelease_iff.mp hw
  intro hplus
  rcases mem_intercalate hplus with hdot | ⟨v, hv, hmem⟩
  · cases hdot
  · exact not_mem_identifier (hpieces v hv) (by decide) (by decide) hmem

/-- A prerelease begins with an identifier. -/
theorem exists_head_prerelease {w : List Char} (hw : w ∈ (prerelease U).lang) :
    ∃ c ∈ w.head?, U.decimal c = true ∨ isTagChar c = true := by
  obtain ⟨piece, pieces, hpieces, rfl⟩ := mem_prerelease_iff.mp hw
  have hpiece := hpieces piece List.mem_cons_self
  obtain ⟨c, v, rfl⟩ := List.exists_cons_of_ne_nil (ne_nil_of_mem_identifier hpiece)
  rw [intercalate_eq_append_flatten]
  exact ⟨c, rfl, decimal_or_isTagChar hpiece List.mem_cons_self⟩

theorem plain_prerelease : (prerelease U).Plain := by
  simp [prerelease, sepBy, identifier, digits, plus, Plain]

theorem plain_build : build.Plain := by
  simp [build, sepBy, plus, Plain]

end Identifiers

section Tags

/-- The text of the build tags with their sign. -/
def buildText : Option (List Char) → List Char
  | none => []
  | some b => '+' :: b

/-- A prerelease and the groups of both. -/
def prereleaseCaptures : Option (List Char) → Captures Char
  | none => []
  | some p => [(4, p)]

def buildCaptures : Option (List Char) → Captures Char
  | none => []
  | some b => [(5, b)]

/-- `(..)(?:\+(..))?`, the prerelease behind its hyphen. -/
def prereleasePart (U : Unicode) : Pattern Char := seq (group 4 (prerelease U)) buildPart

variable {U}

theorem mem_buildPart_iff {w : List Char} :
    w ∈ buildPart.lang ↔ ∃ b, (∀ v ∈ b, v ∈ build.lang) ∧ w = buildText b := by
  simp only [buildPart, opt, lang, Language.mem_add, Language.mem_mul]
  constructor
  · rintro (⟨_, ⟨c, hc, rfl⟩, v, hv, rfl⟩ | hempty)
    · exact ⟨some v, fun _ h => by cases h; exact hv, by rw [beq_iff_eq.mp hc]; rfl⟩
    · exact ⟨none, fun _ h => (Option.not_mem_none _ h).elim, Language.mem_one w |>.mp hempty⟩
  · rintro ⟨_ | v, hb, rfl⟩
    · exact Or.inr ((Language.mem_one _).mpr rfl)
    · exact Or.inl ⟨['+'], ⟨'+', rfl, rfl⟩, v, hb v rfl, rfl⟩

theorem exec_buildPart {b : Option (List Char)} (hb : ∀ v ∈ b, v ∈ build.lang) :
    buildPart.exec (buildText b) = some (buildCaptures b) := by
  rw [buildPart, opt, exec_alt]
  cases b with
  | none => rfl
  | some v =>
    rw [buildText, literal, exec_seq_cls_cons, exec_group_of_plain plain_build (hb v rfl)]
    rfl

theorem head_buildText {b : Option (List Char)} :
    ∀ c ∈ (buildText b).head?, (c != '+') = false := by
  cases b <;> simp [buildText]

/-- The end of a prerelease is where the build tags begin. -/
theorem eq_buildText {v t p : List Char} {b : Option (List Char)} (h : v ++ t = p ++ buildText b)
    (hv : v ∈ (prerelease U).lang) (hp : p ∈ (prerelease U).lang) (ht : t ∈ buildPart.lang) :
    t = buildText b := by
  have hplus {w : List Char} (hw : w ∈ (prerelease U).lang) : ∀ c ∈ w, (c != '+') = true := by
    intro c hc
    rw [bne_iff_ne]
    rintro rfl
    exact plus_not_mem_prerelease hw hc
  obtain ⟨b', -, rfl⟩ := mem_buildPart_iff.mp ht
  exact eq_of_append_eq_append h (hplus hv) (hplus hp) head_buildText head_buildText

theorem exec_prereleasePart {p : List Char} {b : Option (List Char)}
    (hp : p ∈ (prerelease U).lang) (hb : ∀ v ∈ b, v ∈ build.lang) :
    (prereleasePart U).exec (p ++ buildText b) = some (buildCaptures b ++ [(4, p)]) := by
  rw [prereleasePart, exec_seq_group_of_unique plain_prerelease hp
    (fun v t h hv ht => eq_buildText h hv hp ht) 4, exec_buildPart hb]
  rfl

theorem mem_prereleasePart_iff {w : List Char} : w ∈ (prereleasePart U).lang ↔
    ∃ p b, p ∈ (prerelease U).lang ∧ (∀ v ∈ b, v ∈ build.lang) ∧ w = p ++ buildText b := by
  rw [prereleasePart, lang, Language.mem_mul]
  constructor
  · rintro ⟨p, hp, _, hw, rfl⟩
    obtain ⟨b, hb, rfl⟩ := mem_buildPart_iff.mp hw
    exact ⟨p, b, hp, hb, rfl⟩
  · rintro ⟨p, b, hp, hb, rfl⟩
    exact ⟨p, hp, buildText b, mem_buildPart_iff.mpr ⟨b, hb, rfl⟩, rfl⟩

theorem exec_tagsPart (w : List Char) : (tagsPart U).exec w =
    (((seq (literal '-') (prereleasePart U)).exec w).or ((prereleasePart U).exec w)).or
      (buildPart.exec w) := by
  rw [tagsPart, opt, exec_seq_alt, exec_seq_empty, exec_seq_assoc, opt, exec_seq_alt,
    exec_seq_empty, prereleasePart]

theorem mem_tagsPart_iff {w : List Char} : w ∈ (tagsPart U).lang ↔
    (∃ v, w = '-' :: v ∧ v ∈ (prereleasePart U).lang) ∨ w ∈ (prereleasePart U).lang ∨
      w ∈ buildPart.lang := by
  rw [← exec_isSome_iff, exec_tagsPart, Option.isSome_or, Option.isSome_or, Bool.or_eq_true,
    Bool.or_eq_true, exec_isSome_iff, exec_isSome_iff, exec_isSome_iff, or_assoc]
  apply or_congr_left
  rw [lang, Language.mem_mul]
  constructor
  · rintro ⟨_, ⟨c, hc, rfl⟩, v, hv, rfl⟩
    exact ⟨v, by rw [beq_iff_eq.mp hc]; rfl, hv⟩
  · rintro ⟨v, rfl, hv⟩
    exact ⟨['-'], ⟨'-', rfl, rfl⟩, v, hv, rfl⟩

/-- The hyphen belongs to no tag where the rest is a prerelease. -/
theorem exec_tagsPart_hyphen {p : List Char} {b : Option (List Char)}
    (hp : p ∈ (prerelease U).lang) (hb : ∀ v ∈ b, v ∈ build.lang) :
    (tagsPart U).exec ('-' :: (p ++ buildText b)) = some (buildCaptures b ++ [(4, p)]) := by
  rw [exec_tagsPart, literal, exec_seq_cls_cons, exec_prereleasePart hp hb]
  rfl

theorem exec_tagsPart_build {b : Option (List Char)} (hb : ∀ v ∈ b, v ∈ build.lang) :
    (tagsPart U).exec (buildText b) = some (buildCaptures b) := by
  have hhyphen : (seq (literal '-') (prereleasePart U)).exec (buildText b) = none := by
    cases b <;> simp [buildText, literal]
  have hplain : (prereleasePart U).exec (buildText b) = none := by
    rw [exec_eq_none_iff, mem_prereleasePart_iff]
    rintro ⟨p, b', hp, -, heq⟩
    obtain ⟨c, hc, hchar⟩ := exists_head_prerelease hp
    obtain ⟨q, rfl⟩ : ∃ q, p = c :: q := by
      cases p with
      | nil => cases hc
      | cons d q => cases hc; exact ⟨q, rfl⟩
    cases b with
    | none => cases heq
    | some v =>
      cases heq
      have hplus : U.decimal '+' = false := U.decimal_ascii '+' (by decide)
      rw [hplus] at hchar
      exact hchar.elim (fun h => by cases h) (by decide)
  rw [exec_tagsPart, hhyphen, hplain, exec_buildPart hb]
  rfl

/-- What is captured behind the numbers. -/
theorem exists_of_exec_tagsPart {w : List Char} {e : Captures Char}
    (h : (tagsPart U).exec w = some e) : ∃ p b, (∀ v ∈ p, v ∈ (prerelease U).lang) ∧
      (∀ v ∈ b, v ∈ build.lang) ∧ e = buildCaptures b ++ prereleaseCaptures p := by
  have hpart {v : List Char} {e : Captures Char} (h : (prereleasePart U).exec v = some e) :
      ∃ p b, (∀ v ∈ p, v ∈ (prerelease U).lang) ∧ (∀ v ∈ b, v ∈ build.lang) ∧
        e = buildCaptures b ++ prereleaseCaptures p := by
    obtain ⟨p, b, hp, hb, rfl⟩ := mem_prereleasePart_iff.mp
      ((exec_isSome_iff _ _).mp (by rw [h]; rfl))
    rw [exec_prereleasePart hp hb] at h
    cases h
    exact ⟨some p, b, fun _ h => by cases h; exact hp, hb, rfl⟩
  rw [exec_tagsPart, Option.or_eq_some_iff, Option.or_eq_some_iff] at h
  rcases h with (hhyphen | ⟨-, hplain⟩) | ⟨-, hbuild⟩
  · cases w with
    | nil => simp [literal] at hhyphen
    | cons c w =>
      rw [literal, exec_seq_cls_cons] at hhyphen
      split_ifs at hhyphen
      exact hpart hhyphen
  · exact hpart hplain
  · obtain ⟨b, hb, rfl⟩ := mem_buildPart_iff.mp ((exec_isSome_iff _ _).mp (by rw [hbuild]; rfl))
    rw [exec_buildPart hb] at hbuild
    cases hbuild
    exact ⟨none, b, fun _ h => (Option.not_mem_none _ h).elim, hb, (List.append_nil _).symm⟩

end Tags

section Split

/-- A dot with a prerelease, and build tags: no tags by themselves, but tags behind a digit. -/
def SplitTail (U : Unicode) (w : List Char) : Prop :=
  ∃ p b, p ∈ (prerelease U).lang ∧ (∀ v ∈ b, v ∈ build.lang) ∧ w = '.' :: p ++ buildText b

variable {U}

theorem decimal_of_isLetter {c : Char} (h : isLetter c = true) : U.decimal c = false := by
  have hcases : (c.isAlpha = true ∨ c = '-') := by simpa [isLetter] using h
  rcases hcases with halpha | rfl
  · simp only [Char.isAlpha, Char.isUpper, Char.isLower, Bool.or_eq_true, Bool.and_eq_true,
      decide_eq_true_eq, ge_iff_le, UInt32.le_iff_toNat_le] at halpha
    have hlt : c.val < 128 := by
      rw [UInt32.lt_iff_toNat_lt]
      simp at halpha ⊢
      omega
    rw [U.decimal_ascii c hlt, Bool.eq_false_iff]
    intro hdigit
    simp only [Char.isDigit, Bool.and_eq_true, decide_eq_true_eq, ge_iff_le,
      UInt32.le_iff_toNat_le] at hdigit
    simp at halpha hdigit
    omega
  · exact U.decimal_ascii '-' (by decide)

theorem isDigit_of_isLetter {c : Char} (h : isLetter c = true) : c.isDigit = false := by
  rw [Bool.eq_false_iff]
  intro hdigit
  have hdec : asciiDigits.decimal c = false := decimal_of_isLetter h
  have hdec' : asciiDigits.decimal c = true := hdigit
  rw [hdec'] at hdec
  cases hdec

/-- What stands behind the first identifier of tags begins with no digit. -/
theorem head_rest {pieces : List (List Char)} {b : Option (List Char)} :
    ∀ c ∈ ((pieces.map fun w => '.' :: w).flatten ++ buildText b).head?, c.isDigit = false := by
  cases pieces with
  | nil => cases b <;> simp [buildText]
  | cons v pieces => simp

theorem eq_nil_or_concat_append {d a w r : List Char} (h : d ++ a = w ++ r)
    (hd : ∀ x ∈ d, x.isDigit = true) (hr : ∀ x ∈ r.head?, x.isDigit = false) :
    ∃ t, w = d ++ t ∧ a = t ++ r := by
  rcases List.append_eq_append_iff.mp h with ⟨t, hw, ha⟩ | ⟨t, hd', hr'⟩
  · exact ⟨t, hw, ha⟩
  · cases t with
    | nil => exact ⟨[], by simpa using hd'.symm, by simpa using hr'.symm⟩
    | cons x t =>
      have hx := hr x (by rw [hr']; rfl)
      rw [hd x (by rw [hd']; simp)] at hx
      cases hx

/-- When only a part of a run of digits is left to the tags, they go on with a dot. -/
theorem splitTail_of_mem {y z : List Char} {x : Char} (hy : ∀ c ∈ y, c.isDigit = true)
    (hx : x.isDigit = true) (hz : ∀ c ∈ z.head?, c.isDigit = false)
    (hnone : z ∉ (tagsPart U).lang) (h : y ++ x :: z ∈ (tagsPart U).lang) : SplitTail U z := by
  have hrun : ∀ c ∈ y ++ [x], c.isDigit = true := by
    intro c hc
    rcases List.mem_append.mp hc with hc | hc
    · exact hy c hc
    · rwa [List.mem_singleton.mp hc]
  have happ : y ++ x :: z = (y ++ [x]) ++ z := by simp
  obtain ⟨d, v, hd, hdigit⟩ : ∃ d v, y ++ x :: z = d :: v ∧ d.isDigit = true := by
    cases y with
    | nil => exact ⟨x, z, rfl, hx⟩
    | cons d y => exact ⟨d, y ++ x :: z, rfl, hy d List.mem_cons_self⟩
  rcases mem_tagsPart_iff.mp h with ⟨v', hv', -⟩ | hpart | hbuild
  · rw [hd] at hv'
    cases hv'
    cases hdigit
  · obtain ⟨p, b, hp, hb, heq⟩ := mem_prereleasePart_iff.mp hpart
    obtain ⟨piece, pieces, hpieces, rfl⟩ := mem_prerelease_iff.mp hp
    have hsplit : (y ++ [x]) ++ z =
        piece ++ ((pieces.map fun w => '.' :: w).flatten ++ buildText b) := by
      rw [← List.append_assoc, ← intercalate_eq_append_flatten, ← happ, heq]
    rcases mem_identifier_iff.mp (hpieces piece List.mem_cons_self) with
      ⟨-, hdigits⟩ | ⟨a, l, c, rfl, ha, hl, hc⟩
    · -- the first identifier is the rest of the run
      have hrest := eq_of_append_eq_append hsplit hrun hdigits hz head_rest
      cases pieces with
      | nil => exact absurd (mem_tagsPart_iff.mpr (Or.inr (Or.inr (mem_buildPart_iff.mpr
          ⟨b, hb, hrest⟩)))) hnone
      | cons q pieces =>
        refine ⟨['.'].intercalate (q :: pieces), b, mem_prerelease_iff.mpr
          ⟨q, pieces, fun w hw => hpieces w (List.mem_cons_of_mem _ hw), rfl⟩, hb, ?_⟩
        rw [hrest, intercalate_eq_append_flatten]
        simp
    · -- the first identifier has a letter, so it is one without the digits too
      obtain ⟨t, rfl, hz'⟩ : ∃ t, a = (y ++ [x]) ++ t ∧
          z = t ++ (l :: c ++ ((pieces.map fun w => '.' :: w).flatten ++ buildText b)) := by
        rw [List.append_assoc a] at hsplit
        exact eq_nil_or_concat_append hsplit hrun
          fun c hc => by cases hc; exact isDigit_of_isLetter hl
      refine absurd (mem_tagsPart_iff.mpr (Or.inr (Or.inl (mem_prereleasePart_iff.mpr
        ⟨['.'].intercalate ((t ++ l :: c) :: pieces), b, mem_prerelease_iff.mpr
          ⟨t ++ l :: c, pieces, ?_, rfl⟩, hb, ?_⟩)))) hnone
      · intro w hw
        rcases List.mem_cons.mp hw with rfl | hw
        · exact mem_identifier_iff.mpr (Or.inr
            ⟨t, l, c, rfl, fun c hc => ha c (List.mem_append_right _ hc), hl, hc⟩)
        · exact hpieces w (List.mem_cons_of_mem _ hw)
      · rw [hz', intercalate_eq_append_flatten]
        simp
  · obtain ⟨b, -, heq⟩ := mem_buildPart_iff.mp hbuild
    rw [hd] at heq
    cases b with
    | none => cases heq
    | some b =>
      cases heq
      cases hdigit

theorem SplitTail.not_mem {z : List Char} (h : SplitTail U z) : z ∉ (tagsPart U).lang := by
  obtain ⟨p, b, -, -, rfl⟩ := h
  intro hmem
  rcases mem_tagsPart_iff.mp hmem with ⟨v, hv, -⟩ | hpart | hbuild
  · cases hv
  · obtain ⟨q, b', hq, -, heq⟩ := mem_prereleasePart_iff.mp hpart
    obtain ⟨c, hc, hchar⟩ := exists_head_prerelease hq
    obtain ⟨q', rfl⟩ : ∃ q', q = c :: q' := by
      cases q with
      | nil => cases hc
      | cons d q => cases hc; exact ⟨q, rfl⟩
    rw [List.cons_append, List.cons_append, List.cons.injEq] at heq
    rw [← heq.1] at hchar
    have hdot : U.decimal '.' = false := U.decimal_ascii '.' (by decide)
    rw [hdot] at hchar
    exact hchar.elim (fun h => by cases h) (by decide)
  · obtain ⟨b', -, heq⟩ := mem_buildPart_iff.mp hbuild
    cases b' <;> cases heq

theorem SplitTail.mem {z : List Char} {x : Char} (hx : x.isDigit = true) (h : SplitTail U z) :
    ∃ e, (tagsPart U).exec (x :: z) = some e := by
  obtain ⟨p, b, hp, hb, rfl⟩ := h
  rw [← Option.isSome_iff_exists, exec_isSome_iff, mem_tagsPart_iff]
  refine Or.inr (Or.inl (mem_prereleasePart_iff.mpr ⟨x :: '.' :: p, b, ?_, hb, rfl⟩))
  obtain ⟨piece, pieces, hpieces, rfl⟩ := mem_prerelease_iff.mp hp
  refine mem_prerelease_iff.mpr ⟨[x], piece :: pieces, List.forall_mem_cons.mpr ⟨?_, hpieces⟩, ?_⟩
  · exact mem_identifier_iff.mpr (Or.inl ⟨List.cons_ne_nil _ _, by simpa using hx⟩)
  · rw [List.intercalate_cons_cons]
    rfl

end Split

end NpmFollower.SemverSpecSerialization
