import NpmFollower.PostgresDb.Json

/-! # Rows of the change log without NUL characters

Postgres refuses the escape `\u0000` inside a JSON value. `insert_change` prints
the value, replaces the escape in the text and parses the text again; texts are
lists of characters.
-/

namespace NpmFollower.PostgresDb

/-! ## The text of a value -/

def hexDigit (n : ℕ) : Char := Char.ofNat (if n < 10 then n + 48 else n + 87)

/-- The escape table of serde_json. -/
def escapeChar (c : Char) : List Char :=
  if c = '"' then ['\\', '"']
  else if c = '\\' then ['\\', '\\']
  else if 32 ≤ c.toNat then [c]
  else if c.toNat = 8 then ['\\', 'b']
  else if c.toNat = 9 then ['\\', 't']
  else if c.toNat = 10 then ['\\', 'n']
  else if c.toNat = 12 then ['\\', 'f']
  else if c.toNat = 13 then ['\\', 'r']
  else ['\\', 'u', '0', '0', hexDigit (c.toNat / 16), hexDigit (c.toNat % 16)]

def shortEscape : Char → Option Char
  | '"' => some '"'
  | '\\' => some '\\'
  | '/' => some '/'
  | 'b' => some (Char.ofNat 8)
  | 't' => some (Char.ofNat 9)
  | 'n' => some (Char.ofNat 10)
  | 'f' => some (Char.ofNat 12)
  | 'r' => some (Char.ofNat 13)
  | _ => none

def hexValue (c : Char) : Option ℕ :=
  if '0' ≤ c ∧ c ≤ '9' then some (c.toNat - 48)
  else if 'a' ≤ c ∧ c ≤ 'f' then some (c.toNat - 87)
  else if 'A' ≤ c ∧ c ≤ 'F' then some (c.toNat - 55)
  else none

def hexChar (a b c d : Char) : Option Char := do
  let a ← hexValue a
  let b ← hexValue b
  let c ← hexValue c
  let d ← hexValue d
  let n := ((a * 16 + b) * 16 + c) * 16 + d
  if n.isValidChar then some (Char.ofNat n) else none

/-- What the inside of a JSON string literal spells, pairs of surrogates apart. -/
def unescape : List Char → Option (List Char)
  | [] => some []
  | '\\' :: 'u' :: a :: b :: c :: d :: rest => do
    let x ← hexChar a b c d
    let ys ← unescape rest
    some (x :: ys)
  | '\\' :: c :: rest => do
    let x ← shortEscape c
    let ys ← unescape rest
    some (x :: ys)
  | c :: rest =>
    if c = '"' ∨ c = '\\' ∨ c.toNat < 32 then none else (unescape rest).map (c :: ·)

def literal (esc : Char → List Char) (s : String) : List Char :=
  '"' :: s.toList.flatMap esc ++ ['"']

mutual
/-- The compact formatter, with the escape of each character as a parameter. -/
def Value.write (numberText : Number → List Char) (esc : Char → List Char) : Value → List Char
  | .null => "null".toList
  | .bool true => "true".toList
  | .bool false => "false".toList
  | .number n => numberText n
  | .string s => literal esc s
  | .array xs => '[' :: Value.writeList numberText esc xs ++ [']']
  | .object m => '{' :: Value.writeEntries numberText esc m ++ ['}']

def Value.writeList (numberText : Number → List Char) (esc : Char → List Char) :
    List Value → List Char
  | [] => []
  | [x] => x.write numberText esc
  | x :: y :: xs => x.write numberText esc ++ ',' :: Value.writeList numberText esc (y :: xs)

def Value.writeEntries (numberText : Number → List Char) (esc : Char → List Char) :
    List (String × Value) → List Char
  | [] => []
  | [(k, v)] => literal esc k ++ ':' :: v.write numberText esc
  | (k, v) :: e :: m =>
    literal esc k ++ ':' :: v.write numberText esc ++
      ',' :: Value.writeEntries numberText esc (e :: m)
end

def mapString (f : Char → List Char) (s : String) : String := String.ofList (s.toList.flatMap f)

mutual
/-- Every string and every key changed character by character. An object is read
back entry by entry, so of two equal keys the later value stays. -/
def Value.mapStrings (f : Char → List Char) : Value → Value
  | .null => .null
  | .bool b => .bool b
  | .number n => .number n
  | .string s => .string (mapString f s)
  | .array xs => .array (Value.mapStringsList f xs)
  | .object m => .object (Value.mapStringsEntries f [] m)

def Value.mapStringsList (f : Char → List Char) : List Value → List Value
  | [] => []
  | x :: xs => x.mapStrings f :: Value.mapStringsList f xs

def Value.mapStringsEntries (f : Char → List Char) (read : JsonMap) :
    List (String × Value) → JsonMap
  | [] => read
  | (k, v) :: m => Value.mapStringsEntries f (read.insert (mapString f k) (v.mapStrings f)) m
end

/-- Printing and parsing of serde_json. A number is printed with digits, a sign,
a point and an exponent. -/
structure SerdeJson where
  numberText : Number → List Char
  fromStr : List Char → Option Value
  numberText_plain : ∀ n, '\\' ∉ numberText n

namespace SerdeJson

variable (S : SerdeJson)

def toString (v : Value) : List Char := v.write S.numberText escapeChar

/-- The parser reads the compact text of `v`, whichever escapes its string
literals use, as `v` with those strings. This excludes a `v` nested deeper than
the parser goes and a double that it rounds. -/
def Reads (v : Value) : Prop :=
  ∀ (esc dec : Char → List Char), (∀ c, unescape (esc c) = some (dec c)) →
    S.fromStr (v.write S.numberText esc) = some (v.mapStrings dec)

end SerdeJson

/-! ## The sanitiser -/

inductive State where
  | s0 | s1 | s2 | s3 | s4 | s5
deriving DecidableEq

namespace State

def step : State × List Char → Char → State × List Char
  | (s0, sanitized), x => if x = '\\' then (s1, sanitized) else (s0, sanitized ++ [x])
  | (s1, sanitized), x => if x = 'u' then (s2, sanitized) else (s0, sanitized ++ ['\\', x])
  | (s2, sanitized), x => if x = '0' then (s3, sanitized) else (s0, sanitized ++ ['\\', 'u', x])
  | (s3, sanitized), x =>
    if x = '0' then (s4, sanitized) else (s0, sanitized ++ ['\\', 'u', '0', x])
  | (s4, sanitized), x =>
    if x = '0' then (s5, sanitized) else (s0, sanitized ++ ['\\', 'u', '0', '0', x])
  | (s5, sanitized), x =>
    if x = '0' then (s0, sanitized ++ "[NULL]".toList)
    else (s0, sanitized ++ ['\\', 'u', '0', '0', '0', x])

end State

/-- An unfinished escape at the end of the text is dropped. -/
def sanitizeNullEscapes (s : List Char) : List Char := (s.foldl State.step (.s0, [])).2

/-- The value that `insert_change` stores; `none` is its panic on a text that
does not parse. -/
def sanitizedValue (S : SerdeJson) (rawJson : Value) : Option Value :=
  S.fromStr (sanitizeNullEscapes (S.toString rawJson))

/-! ## What the sanitiser does between two escapes -/

/-- From the start state the sanitiser turns `text` into `out` and is in the start
state again. -/
def Sanitizes (text out : List Char) : Prop :=
  ∀ sanitized, text.foldl State.step (.s0, sanitized) = (.s0, sanitized ++ out)

namespace Sanitizes

variable {text text' out out' : List Char}

theorem result (h : Sanitizes text out) : sanitizeNullEscapes text = out := by
  simp [sanitizeNullEscapes, h []]

theorem nil : Sanitizes [] [] := fun sanitized => by simp

theorem append (h : Sanitizes text out) (h' : Sanitizes text' out') :
    Sanitizes (text ++ text') (out ++ out') := by
  intro sanitized
  rw [List.foldl_append, h, h', List.append_assoc]

theorem cons {x : Char} (hx : x ≠ '\\') (h : Sanitizes text out) :
    Sanitizes (x :: text) (x :: out) := by
  intro sanitized
  rw [List.foldl_cons, State.step, if_neg hx, h, List.append_assoc]
  rfl

theorem plain (h : '\\' ∉ text) : Sanitizes text text := by
  induction text with
  | nil => exact nil
  | cons x text ih =>
    rw [List.mem_cons, not_or] at h
    exact cons (Ne.symm h.1) (ih h.2)

theorem flatMap {f g : Char → List Char} (h : ∀ c, Sanitizes (f c) (g c)) (cs : List Char) :
    Sanitizes (cs.flatMap f) (cs.flatMap g) := by
  induction cs with
  | nil => exact nil
  | cons c cs ih =>
    rw [List.flatMap_cons, List.flatMap_cons]
    exact (h c).append ih

theorem literal {f g : Char → List Char} (h : ∀ c, Sanitizes (f c) (g c)) (s : String) :
    Sanitizes (literal f s) (PostgresDb.literal g s) :=
  cons (by decide) ((flatMap h s.toList).append (plain (by decide)))

end Sanitizes

mutual
theorem sanitizes_write {numberText : Number → List Char} (hn : ∀ n, '\\' ∉ numberText n)
    {f g : Char → List Char} (h : ∀ c, Sanitizes (f c) (g c)) :
    (v : Value) → Sanitizes (v.write numberText f) (v.write numberText g)
  | .null => by
    rw [Value.write, Value.write]
    exact Sanitizes.plain (by decide)
  | .bool true => by
    rw [Value.write, Value.write]
    exact Sanitizes.plain (by decide)
  | .bool false => by
    rw [Value.write, Value.write]
    exact Sanitizes.plain (by decide)
  | .number n => by
    rw [Value.write, Value.write]
    exact Sanitizes.plain (hn n)
  | .string s => by
    rw [Value.write, Value.write]
    exact Sanitizes.literal h s
  | .array xs => by
    rw [Value.write, Value.write]
    exact Sanitizes.cons (by decide)
      ((sanitizes_writeList hn h xs).append (Sanitizes.plain (by decide)))
  | .object m => by
    rw [Value.write, Value.write]
    exact Sanitizes.cons (by decide)
      ((sanitizes_writeEntries hn h m).append (Sanitizes.plain (by decide)))

theorem sanitizes_writeList {numberText : Number → List Char} (hn : ∀ n, '\\' ∉ numberText n)
    {f g : Char → List Char} (h : ∀ c, Sanitizes (f c) (g c)) :
    (xs : List Value) →
      Sanitizes (Value.writeList numberText f xs) (Value.writeList numberText g xs)
  | [] => by
    rw [Value.writeList, Value.writeList]
    exact Sanitizes.nil
  | [x] => by
    rw [Value.writeList, Value.writeList]
    exact sanitizes_write hn h x
  | x :: y :: xs => by
    rw [Value.writeList, Value.writeList]
    exact (sanitizes_write hn h x).append
      (Sanitizes.cons (by decide) (sanitizes_writeList hn h (y :: xs)))

theorem sanitizes_writeEntries {numberText : Number → List Char} (hn : ∀ n, '\\' ∉ numberText n)
    {f g : Char → List Char} (h : ∀ c, Sanitizes (f c) (g c)) :
    (m : List (String × Value)) →
      Sanitizes (Value.writeEntries numberText f m) (Value.writeEntries numberText g m)
  | [] => by
    rw [Value.writeEntries, Value.writeEntries]
    exact Sanitizes.nil
  | [(k, v)] => by
    rw [Value.writeEntries, Value.writeEntries]
    exact (Sanitizes.literal h k).append (Sanitizes.cons (by decide) (sanitizes_write hn h v))
  | (k, v) :: e :: m => by
    rw [Value.writeEntries, Value.writeEntries]
    have hv := Sanitizes.cons (x := ':') (by decide) (sanitizes_write hn h v)
    exact ((Sanitizes.literal h k).append hv).append
      (Sanitizes.cons (by decide) (sanitizes_writeEntries hn h (e :: m)))
end

/-! ## One character -/

/-- The replacement that the sanitiser is for. -/
def nulText (c : Char) : List Char := if c = Char.ofNat 0 then "[NULL]".toList else [c]

/-- The escape of a character after the sanitiser. -/
def cleanEscape (c : Char) : List Char :=
  if c = Char.ofNat 0 then "[NULL]".toList else escapeChar c

theorem eq_ofNat_of_lt {c : Char} (h : c.toNat < 32) : ∃ n : Fin 32, c = Char.ofNat n :=
  ⟨⟨c.toNat, h⟩, (Char.ofNat_toNat c).symm⟩

theorem sanitizes_escapeChar (c : Char) : Sanitizes (escapeChar c) (cleanEscape c) := by
  intro sanitized
  by_cases hlow : c.toNat < 32
  · obtain ⟨n, rfl⟩ := eq_ofNat_of_lt hlow
    fin_cases n <;> simp [escapeChar, cleanEscape, hexDigit, State.step]
  · have hzero : c ≠ Char.ofNat 0 := by
      rintro rfl
      exact hlow (by decide)
    by_cases hquote : c = '"'
    · subst hquote
      simp [escapeChar, cleanEscape, State.step]
    · by_cases hslash : c = '\\'
      · subst hslash
        simp [escapeChar, cleanEscape, State.step]
      · have hraw : escapeChar c = [c] := by
          rw [escapeChar, if_neg hquote, if_neg hslash, if_pos (by omega)]
        rw [cleanEscape, if_neg hzero, hraw]
        exact Sanitizes.plain (by simpa [eq_comm] using hslash) sanitized

theorem unescape_cleanEscape (c : Char) : unescape (cleanEscape c) = some (nulText c) := by
  by_cases hlow : c.toNat < 32
  · obtain ⟨n, rfl⟩ := eq_ofNat_of_lt hlow
    revert n
    decide
  · have hzero : c ≠ Char.ofNat 0 := by
      rintro rfl
      exact hlow (by decide)
    rw [cleanEscape, if_neg hzero, nulText, if_neg hzero]
    by_cases hquote : c = '"'
    · subst hquote
      decide
    · by_cases hslash : c = '\\'
      · subst hslash
        decide
      · rw [escapeChar, if_neg hquote, if_neg hslash, if_pos (by omega)]
        simp [unescape, hquote, hslash, hlow]

theorem sanitizes_string (S : SerdeJson) {s : String} (hs : Char.ofNat 0 ∉ s.toList) :
    Sanitizes (S.toString (.string s)) (S.toString (.string s)) := by
  have hclean : s.toList.flatMap cleanEscape = s.toList.flatMap escapeChar :=
    List.flatMap_congr fun c hc => if_neg (ne_of_mem_of_not_mem hc hs)
  have h := Sanitizes.literal sanitizes_escapeChar s
  rw [literal, literal, hclean] at h
  rw [SerdeJson.toString, Value.write, literal]
  exact h

/-! ## A reader of one string literal -/

theorem unescape_append {xs ys : List Char} (h : unescape xs = some ys) (zs : List Char) :
    unescape (xs ++ zs) = (unescape zs).map (ys ++ ·) := by
  induction xs using unescape.induct generalizing ys with
  | case1 => simp_all [unescape]
  | case2 a b c d rest ih =>
    rw [unescape] at h
    obtain ⟨x, hx, h⟩ := Option.bind_eq_some_iff.mp h
    obtain ⟨w, hw, h⟩ := Option.bind_eq_some_iff.mp h
    cases h
    simp only [List.cons_append, unescape, hx, ih hw]
    cases unescape zs <;> rfl
  | case3 c rest hu ih =>
    rw [unescape.eq_3 _ _ hu] at h
    obtain ⟨x, hx, h⟩ := Option.bind_eq_some_iff.mp h
    obtain ⟨w, hw, h⟩ := Option.bind_eq_some_iff.mp h
    cases h
    have hc : c ≠ 'u' := by
      rintro rfl
      cases hx
    rw [List.cons_append, List.cons_append, unescape.eq_3]
    · simp only [hx, ih hw]
      cases unescape zs <;> rfl
    · intro _ _ _ _ _ heq
      exact absurd heq hc
  | case4 c rest hu hn hbad => simp [unescape, hbad] at h
  | case5 c rest hu hn hgood ih =>
    rw [unescape.eq_4 _ _ hu hn, if_neg hgood, Option.map_eq_some_iff] at h
    obtain ⟨w, hw, rfl⟩ := h
    have hslash : c ≠ '\\' := fun heq => hgood (Or.inr (Or.inl heq))
    rw [List.cons_append, unescape.eq_4 _ _ (fun _ _ _ _ _ heq => absurd heq hslash)
      (fun _ _ heq => absurd heq hslash), if_neg hgood, ih hw, Option.map_map]
    rfl

def readString : List Char → Option Value
  | '"' :: rest =>
    if rest.getLast? = some '"' then (unescape rest.dropLast).map fun s => .string (String.ofList s)
    else none
  | _ => none

theorem unescape_flatMap {esc dec : Char → List Char} (h : ∀ c, unescape (esc c) = some (dec c))
    (cs : List Char) : unescape (cs.flatMap esc) = some (cs.flatMap dec) := by
  induction cs with
  | nil => rfl
  | cons c cs ih => rw [List.flatMap_cons, List.flatMap_cons, unescape_append (h c), ih]; rfl

theorem readString_literal {esc dec : Char → List Char}
    (h : ∀ c, unescape (esc c) = some (dec c)) (s : String) :
    readString (literal esc s) = some (.string (mapString dec s)) := by
  rw [literal, List.cons_append, readString]
  simp [unescape_flatMap h, mapString]

def stringsOnly : SerdeJson where
  numberText _ := ['0']
  fromStr := readString
  numberText_plain _ := by decide

theorem reads_stringsOnly (s : String) : stringsOnly.Reads (.string s) := by
  intro esc dec h
  rw [Value.write, Value.mapStrings]
  exact readString_literal h s

def nulAfterSlash : String := String.ofList ['\\', 'u', '0', '0', '0', '0', Char.ofNat 0]

end NpmFollower.PostgresDb
