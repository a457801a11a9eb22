import NpmFollower.SemverSpecSerialization.Grammar

/-! # The groups of a match

Which texts the three numbers and the tags of a matched version are, and when
the third number is not a whole run of digits.
-/

namespace NpmFollower.SemverSpecSerialization

open PostgresDb Regex Pattern

variable {U : Unicode}

section Bug

/-- The third number takes its whole run of digits where the rest are tags. -/
theorem exec_bugPart_of_some {d w : List Char} {e : Captures Char} (hd : d ∈ digits.lang)
    (hw : ∀ c ∈ w.head?, c.isDigit = false) (he : (tagsPart U).exec w = some e) :
    (bugPart U).exec (d ++ w) = some (e ++ [(3, d)]) := by
  obtain ⟨hne, hdigits⟩ := mem_digits_iff.mp hd
  exact exec_group_plus_cls_of_some 3 hdigits hw hne he

/-- It leaves its last digit to a split tail. -/
theorem exec_bugPart_of_splitTail {d w : List Char} {x : Char} (hd : d ∈ digits.lang)
    (hx : x.isDigit = true) (hw : ∀ c ∈ w.head?, c.isDigit = false) (htail : SplitTail U w) :
    ∃ e, (tagsPart U).exec (x :: w) = some e ∧
      (bugPart U).exec (d ++ x :: w) = some (e ++ [(3, d)]) := by
  obtain ⟨hne, hdigits⟩ := mem_digits_iff.mp hd
  obtain ⟨e, he⟩ := htail.mem hx
  have hrun : ∀ y ∈ d ++ [x], y.isDigit = true := by
    intro y hy
    rcases List.mem_append.mp hy with hy | hy
    · exact hdigits y hy
    · rwa [List.mem_singleton.mp hy]
  exact ⟨e, he, exec_group_plus_cls_of_none 3 hrun hw hne
    ((exec_eq_none_iff _ _).mpr htail.not_mem) he⟩

/-- The third number of a match. -/
theorem exists_of_exec_bugPart {r : List Char} {m : Captures Char}
    (h : (bugPart U).exec r = some m) : ∃ d w e, r = d ++ w ∧ d ∈ digits.lang ∧
      (tagsPart U).exec w = some e ∧ m = e ++ [(3, d)] ∧
      ((∀ c ∈ w.head?, c.isDigit = false) ∨ ∃ x z, w = x :: z ∧ x.isDigit = true ∧
        (∀ c ∈ z.head?, c.isDigit = false) ∧ SplitTail U z) := by
  have hmem : r ∈ (bugPart U).lang := (exec_isSome_iff _ _).mp (by rw [h]; rfl)
  obtain ⟨d, hd, t, ht, rfl⟩ := (Language.mem_mul ..).mp hmem
  obtain ⟨hne, hdigits⟩ := mem_digits_iff.mp hd
  -- the whole run of digits
  obtain ⟨run, z, ht', hrun, hz⟩ : ∃ run z, t = run ++ z ∧ (∀ c ∈ run, c.isDigit = true) ∧
      ∀ c ∈ z.head?, c.isDigit = false := by
    refine ⟨t.takeWhile Char.isDigit, t.dropWhile Char.isDigit, List.takeWhile_append_dropWhile.symm,
      fun c hc => List.mem_takeWhile_imp hc, fun c hc => ?_⟩
    have hhead := List.head?_dropWhile_not Char.isDigit t
    rw [Option.mem_def.mp hc] at hhead
    simpa using hhead
  subst ht'
  have hwhole : d ++ run ∈ digits.lang := by
    refine mem_digits_iff.mpr ⟨by simp [hne], fun c hc => ?_⟩
    exact (List.mem_append.mp hc).elim (hdigits c) (hrun c)
  cases htags : (tagsPart U).exec z with
  | some e =>
    rw [← List.append_assoc, exec_bugPart_of_some hwhole hz htags, Option.some.injEq] at h
    exact ⟨d ++ run, z, e, by simp, hwhole, htags, h.symm, Or.inl hz⟩
  | none =>
    rcases List.eq_nil_or_concat run with rfl | ⟨y, x, rfl⟩
    · rw [List.nil_append, ← exec_isSome_iff, htags] at ht
      cases ht
    · rw [List.concat_eq_append] at *
      have hx : x.isDigit = true := hrun x (by simp)
      have hy : ∀ c ∈ y, c.isDigit = true := fun c hc => hrun c (List.mem_append_left _ hc)
      rw [List.append_assoc, List.singleton_append] at ht
      have htail := splitTail_of_mem hy hx hz ((exec_eq_none_iff _ _).mp htags) ht
      have hpart : d ++ y ∈ digits.lang := by
        refine mem_digits_iff.mpr ⟨by simp [hne], fun c hc => ?_⟩
        exact (List.mem_append.mp hc).elim (hdigits c) (hy c)
      obtain ⟨e, he, hexec⟩ := exec_bugPart_of_splitTail hpart hx hz htail
      have happ : d ++ (y ++ [x] ++ z) = (d ++ y) ++ x :: z := by simp
      rw [happ, hexec, Option.some.injEq] at h
      exact ⟨d ++ y, x :: z, e, happ, hpart, he, h.symm, Or.inr ⟨x, z, rfl, hx, hz, htail⟩⟩

end Bug

section Whole

theorem isLeading_of_isDigit {c : Char} (h : c.isDigit = true) : isLeading c = false := by
  have hnat := toNat_of_isDigit h
  have hv : c ≠ 'v' := by
    rintro rfl
    exact absurd hnat (by decide)
  have heq : c ≠ '=' := by
    rintro rfl
    exact absurd hnat (by decide)
  simp [isLeading, hv, heq, isWhitespace_of_isDigit h]

theorem trim_eq_self {s : List Char} (hhead : ∀ c ∈ s.head?, isWhitespace c = false)
    (hlast : ∀ c ∈ s.getLast?, isWhitespace c = false) : trim s = s := by
  have hdrop {t : List Char} (h : ∀ c ∈ t.head?, isWhitespace c = false) :
      t.dropWhile isWhitespace = t := by
    cases t with
    | nil => rfl
    | cons c t => rw [List.dropWhile_cons, h c rfl, if_neg Bool.false_ne_true]
  rw [trim, hdrop hhead, hdrop (by rwa [List.head?_reverse]), List.reverse_reverse]

theorem head_of_mem_digits {d w : List Char} (hd : d ∈ digits.lang) :
    ∃ c v, d ++ w = c :: v ∧ c.isDigit = true := by
  obtain ⟨hne, hdigits⟩ := mem_digits_iff.mp hd
  obtain ⟨c, d, rfl⟩ := List.exists_cons_of_ne_nil hne
  exact ⟨c, d ++ w, rfl, hdigits c List.mem_cons_self⟩

/-- A number before a dot ends at the dot. -/
theorem exec_number {b : Pattern Char} {d r : List Char} (n : ℕ) (hd : d ∈ digits.lang) :
    (seq (group n digits) (seq (literal '.') b)).exec (d ++ '.' :: r) =
      (b.exec r).map fun e => e ++ [(n, d)] := by
  have hplain : digits.Plain := by simp [digits, plus, Plain]
  rw [exec_seq_group_of_unique hplain hd ?_ n, literal, exec_seq_cls_cons]
  · rfl
  · intro v t heq hv ht
    obtain ⟨_, ⟨c, hc, rfl⟩, u, -, rfl⟩ := (Language.mem_mul ..).mp ht
    have hdot : ∀ x ∈ ('.' :: r).head?, x.isDigit = false := fun x hx => by cases hx; rfl
    rw [beq_iff_eq.mp hc] at heq ⊢
    exact eq_of_append_eq_append heq (mem_digits_iff.mp hv).2 (mem_digits_iff.mp hd).2
      (fun x hx => by cases hx; rfl) hdot

/-- The expression on a text with two numbers before dots. -/
theorem exec_semverRegex {pre d1 d2 r : List Char} (hpre : ∀ c ∈ pre, isLeading c = true)
    (h1 : d1 ∈ digits.lang) (h2 : d2 ∈ digits.lang) :
    (semverRegex U).exec (pre ++ (d1 ++ '.' :: (d2 ++ '.' :: r))) =
      ((bugPart U).exec r).map fun e => e ++ [(2, d2)] ++ [(1, d1)] := by
  rw [semverRegex, exec_seq_of_unique (by simp [Plain]) ((mem_lang_star_cls _ _).mpr hpre),
    exec_number 1 h1, exec_number 2 h2, Option.map_map]
  · rfl
  · intro v t heq hv ht
    obtain ⟨d, hd, u, -, rfl⟩ := (Language.mem_mul ..).mp ht
    obtain ⟨c, w, hc, hcdigit⟩ := head_of_mem_digits (w := u) hd
    obtain ⟨c', w', hc', hcdigit'⟩ := head_of_mem_digits (w := '.' :: (d2 ++ '.' :: r)) h1
    refine eq_of_append_eq_append heq ((mem_lang_star_cls _ _).mp hv) hpre ?_ ?_
    · rw [hc]
      exact fun x hx => by cases hx; exact isLeading_of_isDigit hcdigit
    · rw [hc']
      exact fun x hx => by cases hx; exact isLeading_of_isDigit hcdigit'

/-- Every match is of this form. -/
theorem exists_of_exec_semverRegex {t : List Char} {m : Captures Char}
    (h : (semverRegex U).exec t = some m) : ∃ pre d1 d2 r e,
      t = pre ++ (d1 ++ '.' :: (d2 ++ '.' :: r)) ∧ (∀ c ∈ pre, isLeading c = true) ∧
      d1 ∈ digits.lang ∧ d2 ∈ digits.lang ∧ (bugPart U).exec r = some e ∧
      m = e ++ [(2, d2)] ++ [(1, d1)] := by
  have hmem : t ∈ (semverRegex U).lang := (exec_isSome_iff _ _).mp (by rw [h]; rfl)
  simp only [semverRegex, lang, Language.mem_mul] at hmem
  obtain ⟨pre, hpre, _, ⟨d1, h1, _, ⟨_, ⟨c, hc, rfl⟩, _, ⟨d2, h2, _, ⟨_, ⟨c', hc', rfl⟩, r, -, rfl⟩,
    rfl⟩, rfl⟩, rfl⟩, rfl⟩ := hmem
  rw [beq_iff_eq.mp hc, beq_iff_eq.mp hc'] at h ⊢
  have hleading := (mem_lang_star_cls _ _).mp hpre
  rw [List.singleton_append, List.singleton_append, exec_semverRegex hleading h1 h2] at h
  obtain ⟨e, he, rfl⟩ := Option.map_eq_some_iff.mp h
  exact ⟨pre, d1, d2, r, e, rfl, hleading, h1, h2, he, rfl⟩

end Whole

end NpmFollower.SemverSpecSerialization
