import NpmFollower.Library.Separators

/-! # Make

A makefile has rules: a target, what it needs, and a recipe. A goal is made after
what it needs, each target once, and only when its file is missing or older than
what it needs. The first command that fails ends all.
-/

namespace Make

structure Rule (T C : Type) where
  target : T
  prereqs : List T
  recipe : List C
  phony : Bool
deriving DecidableEq

/-! ## The text of a makefile -/

/-- The words of a line. -/
def words (line : List Char) : List String :=
  ((line.splitOn ' ').filter (· ≠ [])).map String.ofList

/-- What has been read; the targets that are no files may stand anywhere. -/
structure Reading where
  phony : List String
  rules : List (Rule String String)

namespace Reading

/-- One line; `none` is a line without a separator. -/
def readLine (r : Reading) : List Char → Option Reading
  | [] => some r
  | '#' :: _ => some r
  | '\t' :: line =>
    some { r with
      rules := r.rules.modifyLast fun rule =>
        { rule with recipe := rule.recipe ++ [String.ofList line] } }
  | line =>
    let target := String.ofList (line.takeWhile (· ≠ ':'))
    match line.dropWhile (· ≠ ':') with
    | [] => none
    | _ :: rest =>
      if target = ".PHONY" then some { r with phony := r.phony ++ words rest }
      else some { r with rules := r.rules ++ [⟨target, words rest, [], false⟩] }

def readLines (r : Reading) (lines : List (List Char)) : Option Reading := lines.foldlM readLine r

def finish (r : Reading) : List (Rule String String) :=
  r.rules.map fun rule => { rule with phony := rule.target ∈ r.phony }

end Reading

def read (text : String) : Option (List (Rule String String)) :=
  (Reading.readLines ⟨[], []⟩ (text.toList.splitOn '\n')).map Reading.finish

section Text

variable {r : Reading} {w : String} {ws : List String}

/-- A word that a line can hold. -/
def Plain (w : String) : Prop := w ≠ "" ∧ ∀ c ∈ w.toList, c ≠ ' ' ∧ c ≠ ':'

theorem words_intercalate (hws : ∀ w ∈ ws, Plain w) :
    words (" ".intercalate ws).toList = ws := by
  rcases ws with _ | ⟨w, ws⟩
  · rfl
  have hsplit : ([' '].intercalate ((w :: ws).map String.toList)).splitOn ' ' =
      (w :: ws).map String.toList := by
    refine Separators.splitOn_intercalate_iff.mpr ⟨by simp, fun l hl hmem => ?_⟩
    obtain ⟨v, hv, rfl⟩ := List.mem_map.mp hl
    exact ((hws v hv).2 ' ' hmem).1 rfl
  have hfull : ((w :: ws).map String.toList).filter (· ≠ []) = (w :: ws).map String.toList := by
    refine List.filter_eq_self.mpr fun l hl => ?_
    obtain ⟨v, hv, rfl⟩ := List.mem_map.mp hl
    exact decide_eq_true fun hnil => (hws v hv).1 (String.toList_eq_nil_iff.mp hnil)
  have htext : (" ".intercalate (w :: ws)).toList = [' '].intercalate ((w :: ws).map String.toList) :=
    String.toList_intercalate
  rw [words, htext, hsplit, hfull, List.map_map]
  exact (List.map_congr_left fun v _ => String.ofList_toList).trans (List.map_id _)

theorem takeWhile_append_cons {sep : Char} {l : List Char} (h : sep ∉ l) (rest : List Char) :
    (l ++ sep :: rest).takeWhile (· ≠ sep) = l := by
  have hl : ∀ c ∈ l, decide (c ≠ sep) = true := fun c hc => decide_eq_true fun heq => h (heq ▸ hc)
  rw [List.takeWhile_append_of_pos hl]
  simp

theorem dropWhile_append_cons {sep : Char} {l : List Char} (h : sep ∉ l) (rest : List Char) :
    (l ++ sep :: rest).dropWhile (· ≠ sep) = sep :: rest := by
  have hl : ∀ c ∈ l, decide (c ≠ sep) = true := fun c hc => decide_eq_true fun heq => h (heq ▸ hc)
  rw [List.dropWhile_append_of_pos hl]
  simp

theorem words_blank (line : List Char) : words (' ' :: line) = words line := by
  obtain ⟨first, rest, hsplit⟩ := List.exists_cons_of_ne_nil (List.splitOn_ne_nil ' ' line)
  rw [words, words, List.splitOn_cons_eq_if_modifyHead, hsplit]
  rfl

namespace Reading

theorem readLine_other {c : Char} {line : List Char} (hcomment : c ≠ '#') (hrecipe : c ≠ '\t') :
    r.readLine (c :: line) =
      match (c :: line).dropWhile (· ≠ ':') with
      | [] => none
      | _ :: rest =>
        if String.ofList ((c :: line).takeWhile (· ≠ ':')) = ".PHONY" then
          some { r with phony := r.phony ++ words rest }
        else some { r with
          rules := r.rules ++
            [⟨String.ofList ((c :: line).takeWhile (· ≠ ':')), words rest, [], false⟩] } := by
  rw [readLine]
  · exact fun h => nomatch h
  · rintro line' ⟨rfl, rfl⟩
    exact hcomment rfl
  · rintro line' ⟨rfl, rfl⟩
    exact hrecipe rfl

/-- A target and words behind the separator. -/
theorem readLine_words (hw : Plain w) (hhead : ∀ c ∈ w.toList.head?, c ≠ '#' ∧ c ≠ '\t')
    (hws : ∀ v ∈ ws, Plain v) :
    r.readLine (w ++ ": " ++ " ".intercalate ws).toList =
      if w = ".PHONY" then some { r with phony := r.phony ++ ws }
      else some { r with rules := r.rules ++ [⟨w, ws, [], false⟩] } := by
  have htext : (w ++ ": " ++ " ".intercalate ws).toList =
      w.toList ++ ':' :: ' ' :: (" ".intercalate ws).toList := by
    simp
  have hsep : ':' ∉ w.toList := fun hmem => (hw.2 _ hmem).2 rfl
  have htake := takeWhile_append_cons hsep (' ' :: (" ".intercalate ws).toList)
  have hdrop := dropWhile_append_cons hsep (' ' :: (" ".intercalate ws).toList)
  obtain ⟨c, cs, hcons⟩ := List.exists_cons_of_ne_nil fun hnil => hw.1 (String.toList_eq_nil_iff.mp hnil)
  obtain ⟨hcomment, hrecipe⟩ := hhead c (by simp [hcons])
  rw [htext]
  rw [hcons, List.cons_append] at htake hdrop ⊢
  rw [readLine_other hcomment hrecipe, htake, hdrop, ← hcons, String.ofList_toList]
  simp only [words_blank, words_intercalate hws]

theorem readLine_comment (line : List Char) : r.readLine ('#' :: line) = some r := by
  rw [readLine]

theorem readLine_recipe {phony : List String} {rules : List (Rule String String)}
    {rule : Rule String String} (line : String) :
    (Reading.mk phony (rules ++ [rule])).readLine ("\t" ++ line).toList =
      some ⟨phony, rules ++ [{ rule with recipe := rule.recipe ++ [line] }]⟩ := by
  have htext : ("\t" ++ line).toList = '\t' :: line.toList := by
    simp
  rw [htext, readLine, List.modifyLast_concat, String.ofList_toList]

theorem readLine_phony (hw : Plain w) :
    r.readLine (".PHONY: " ++ w).toList = some { r with phony := r.phony ++ [w] } := by
  have htext : ".PHONY: " ++ w = ".PHONY" ++ ": " ++ " ".intercalate [w] := by
    rw [String.intercalate_singleton]
    rfl
  have hplain : Plain ".PHONY" := ⟨by decide, by simp⟩
  rw [htext, readLine_words hplain (by simp) (by simpa using hw), if_pos rfl]

theorem readLines_append {lines lines' : List (List Char)} :
    r.readLines (lines ++ lines') = (r.readLines lines).bind fun r => r.readLines lines' :=
  List.foldlM_append

end Reading

/-- A text of lines is read line by line. -/
theorem read_lines {lines : List String} (hlines : ∀ line ∈ lines, '\n' ∉ line.toList) :
    read (String.join (lines.map (· ++ "\n"))) =
      (Reading.readLines ⟨[], []⟩ (lines.map String.toList)).map Reading.finish := by
  have htext : (String.join (lines.map (· ++ "\n"))).toList =
      ['\n'].intercalate (lines.map String.toList ++ [[]]) := by
    induction lines with
    | nil => rfl
    | cons line lines ih =>
      have hne : lines.map String.toList ++ [[]] ≠ [] := by simp
      obtain ⟨first, rest, hcons⟩ := List.exists_cons_of_ne_nil hne
      have ih := ih fun l hl => hlines l (List.mem_cons_of_mem _ hl)
      rw [List.map_cons, List.map_cons, List.cons_append, hcons, List.intercalate_cons_cons, ← hcons,
        ← ih]
      simp [String.join_cons]
  have hsplit : ((String.join (lines.map (· ++ "\n"))).toList).splitOn '\n' =
      lines.map String.toList ++ [[]] := by
    rw [htext]
    refine Separators.splitOn_intercalate_iff.mpr ⟨by simp, fun l hl => ?_⟩
    rcases List.mem_append.mp hl with hl | hl
    · obtain ⟨line, hline, rfl⟩ := List.mem_map.mp hl
      exact hlines line hline
    · rw [List.mem_singleton.mp hl]
      exact List.not_mem_nil
  rw [read, hsplit, Reading.readLines_append]
  cases Reading.readLines ⟨[], []⟩ (lines.map String.toList) with
  | none => rfl
  | some r => rfl

end Text

/-! ## Making a goal -/

/-- When a file was changed, and what a command does; `false` is a command that fails. -/
structure Shell (T C σ : Type) where
  modified : σ → T → Option ℕ
  exec : C → σ → σ × Bool

section Making

variable {T C σ : Type} [DecidableEq T] (sh : Shell T C σ) (rules : List (Rule T C))

def find (t : T) : Option (Rule T C) := rules.find? fun rule => rule.target = t

def prereqs (t : T) : List T := ((find rules t).map Rule.prereqs).getD []

def runRecipe : List C → σ → σ × Bool
  | [], s => (s, true)
  | c :: recipe, s =>
    match sh.exec c s with
    | (s, true) => runRecipe recipe s
    | r => r

/-- A file that is missing is older than all, and what has no file is newer. -/
def outdated (rule : Rule T C) (s : σ) : Bool :=
  rule.phony ||
    match sh.modified s rule.target with
    | none => true
    | some time => rule.prereqs.any fun p => (sh.modified s p).all fun time' => time < time'

/-- One target whose prerequisites are made; without a rule its file must be there. -/
def build (t : T) (s : σ) : σ × Bool :=
  match find rules t with
  | none => (s, (sh.modified s t).isSome)
  | some rule => if outdated sh rule s then runRecipe sh rule.recipe s else (s, true)

/-- A target after its prerequisites, unless it is done or something has failed. -/
def update : ℕ → T → List T × σ × Bool → List T × σ × Bool
  | 0, _, r => r
  | n + 1, t, r =>
    if r.2.2 = false ∨ t ∈ r.1 then r
    else
      let r := (prereqs rules t).foldl (fun r p => update n p r) r
      if r.2.2 then (r.1 ++ [t], build sh rules t r.2.1) else r

/-- `make` with a goal. -/
def make (goal : T) (s : σ) : σ × Bool :=
  (update sh rules (rules.length + 1) goal ([], s, true)).2

/-! ## The order of the targets -/

def buildAll : List T → σ → σ × Bool
  | [], s => (s, true)
  | t :: ts, s =>
    match build sh rules t s with
    | (s, true) => buildAll ts s
    | r => r

variable {sh rules}

theorem buildAll_append {ts ts' : List T} {s : σ} :
    buildAll sh rules (ts ++ ts') s =
      if (buildAll sh rules ts s).2 then buildAll sh rules ts' (buildAll sh rules ts s).1
      else buildAll sh rules ts s := by
  induction ts generalizing s with
  | nil => rfl
  | cons t ts ih =>
    rw [List.cons_append, buildAll, buildAll]
    rcases build sh rules t s with ⟨s', _ | _⟩
    · rfl
    · exact ih

section Order

variable (needs : T → List T)

/-- The targets in the order in which they are done. -/
def visit : ℕ → T → List T → List T
  | 0, _, done => done
  | n + 1, t, done =>
    if t ∈ done then done else (needs t).foldl (fun done p => visit n p done) done ++ [t]

/-- What a target needs is at most so deep. -/
inductive Within : ℕ → T → Prop where
  | intro {n : ℕ} {t : T} (h : ∀ p ∈ needs t, Within n p) : Within (n + 1) t

/-- Each target once, after what it needs. -/
inductive InOrder : List T → Prop where
  | nil : InOrder []
  | concat {done : List T} {t : T} (rest : InOrder done) (fresh : t ∉ done)
      (after : needs t ⊆ done) : InOrder (done ++ [t])

/-- Whether the targets come in order behind those that are done. -/
def inOrderFrom (done : List T) : List T → Bool
  | [] => true
  | t :: ts =>
    !done.contains t && (needs t).all (done.contains ·) && inOrderFrom (done ++ [t]) ts

/-- What a target needs, directly or not, with itself. -/
def Needs (t p : T) : Prop := Relation.ReflTransGen (fun t p => p ∈ needs t) t p

variable {needs} {n m : ℕ} {t p : T} {done : List T}

omit [DecidableEq T] in
theorem Within.mono (h : Within needs n t) (hnm : n ≤ m) : Within needs m t := by
  induction h generalizing m with
  | intro _ ih =>
    obtain ⟨m, rfl⟩ := Nat.exists_eq_succ_of_ne_zero (Nat.ne_of_gt (Nat.lt_of_lt_of_le
      (Nat.succ_pos _) hnm))
    exact .intro fun p hp => ih p hp (Nat.le_of_succ_le_succ hnm)

omit [DecidableEq T] in
/-- No target needs one that needs it. -/
theorem Within.acyclic (h : Within needs n t) (hp : p ∈ needs t) : ¬ Needs needs p t := by
  induction h generalizing p with
  | intro h ih =>
    rename_i m t
    intro hpt
    rcases Relation.ReflTransGen.cases_head hpt with rfl | ⟨q, hq, hqt⟩
    · exact ih _ hp hp .refl
    · exact ih _ hp hq (hqt.tail hp)

omit [DecidableEq T] in
/-- Needs that are those of other things under a name. -/
theorem needs_image {S : Type} {f : S → T} {needs' : S → List S} {P : S → Prop}
    (hclosed : ∀ a, P a → ∀ b ∈ needs' a, P b)
    (himage : ∀ a, P a → ∀ p, p ∈ needs (f a) ↔ ∃ b ∈ needs' a, f b = p) {a : S} (ha : P a) {x : T} :
    Needs needs (f a) x ↔ ∃ b, Needs needs' a b ∧ f b = x := by
  constructor
  · intro h
    have hreach : ∃ b, (Needs needs' a b ∧ P b) ∧ f b = x := by
      induction h with
      | refl => exact ⟨a, ⟨.refl, ha⟩, rfl⟩
      | tail _ hstep ih =>
        obtain ⟨b, ⟨hb, hPb⟩, rfl⟩ := ih
        obtain ⟨c, hc, rfl⟩ := (himage b hPb _).mp hstep
        exact ⟨c, ⟨hb.tail hc, hclosed b hPb c hc⟩, rfl⟩
    obtain ⟨b, ⟨hb, -⟩, hx⟩ := hreach
    exact ⟨b, hb, hx⟩
  · rintro ⟨b, hb, rfl⟩
    have hreach : Needs needs (f a) (f b) ∧ P b := by
      induction hb with
      | refl => exact ⟨.refl, ha⟩
      | tail _ hstep ih => exact ⟨ih.1.tail ((himage _ ih.2 _).mpr ⟨_, hstep, rfl⟩), hclosed _ ih.2 _ hstep⟩
    exact hreach.1

omit [DecidableEq T] in
theorem InOrder.nodup (h : InOrder needs done) : done.Nodup := by
  induction h with
  | nil => exact List.nodup_nil
  | concat _ fresh _ ih => exact List.nodup_append_comm.mp (List.nodup_cons.mpr ⟨fresh, ih⟩)

omit [DecidableEq T] in
theorem InOrder.concat_iff : InOrder needs (done ++ [t]) ↔
    InOrder needs done ∧ t ∉ done ∧ needs t ⊆ done := by
  constructor
  · generalize hl : done ++ [t] = l
    intro h
    cases h with
    | nil => simp at hl
    | concat rest fresh after =>
      obtain ⟨rfl, hlast⟩ := List.append_inj' hl rfl
      cases hlast
      exact ⟨rest, fresh, after⟩
  · exact fun h => .concat h.1 h.2.1 h.2.2

theorem InOrder.of_inOrderFrom {ts : List T} (hdone : InOrder needs done)
    (h : inOrderFrom needs done ts = true) : InOrder needs (done ++ ts) := by
  induction ts generalizing done with
  | nil => rwa [List.append_nil]
  | cons t ts ih =>
    rw [inOrderFrom, Bool.and_eq_true, Bool.and_eq_true] at h
    obtain ⟨⟨hfresh, hneeds⟩, hrest⟩ := h
    have hnext : InOrder needs (done ++ [t]) :=
      .concat hdone (by simpa using hfresh) fun p hp => by simpa using List.all_eq_true.mp hneeds p hp
    have hall := ih hnext hrest
    rwa [List.append_assoc] at hall

omit [DecidableEq T] in
theorem InOrder.of_append {rest : List T} (h : InOrder needs (done ++ rest)) :
    InOrder needs done := by
  induction rest using List.reverseRecOn with
  | nil => rwa [List.append_nil] at h
  | append_singleton rest t ih =>
    rw [← List.append_assoc] at h
    exact ih (concat_iff.mp h).1

omit [DecidableEq T] in
theorem InOrder.closed (h : InOrder needs done) (ht : t ∈ done) (hp : p ∈ needs t) : p ∈ done := by
  induction h with
  | nil => cases ht
  | concat _ _ after ih =>
    rcases List.mem_append.mp ht with ht | ht
    · exact List.mem_append_left _ (ih ht)
    · rw [List.mem_singleton.mp ht] at hp
      exact List.mem_append_left _ (after hp)

omit [DecidableEq T] in
theorem InOrder.mem_of_needs (h : InOrder needs done) (ht : t ∈ done) (hp : Needs needs t p) :
    p ∈ done := by
  induction hp with
  | refl => exact ht
  | tail _ hstep ih => exact h.closed ih hstep

/-- A visit adds a target and what it needs, in order. -/
theorem visit_spec (h : Within needs n t) (hdone : InOrder needs done) :
    ∃ new, visit needs n t done = done ++ new ∧ InOrder needs (done ++ new) ∧ t ∈ done ++ new ∧
      ∀ x ∈ new, Needs needs t x := by
  induction h generalizing done with
  | intro h ih =>
    rename_i n t
    rw [visit]
    split_ifs with ht
    · exact ⟨[], (List.append_nil _).symm, by rwa [List.append_nil], List.mem_append_left _ ht,
        fun x hx => absurd hx List.not_mem_nil⟩
    · have hfold : ∀ ps ⊆ needs t, ∀ done, InOrder needs done →
          ∃ new, ps.foldl (fun done p => visit needs n p done) done = done ++ new ∧
            InOrder needs (done ++ new) ∧ ps ⊆ done ++ new ∧
            ∀ x ∈ new, ∃ p ∈ needs t, Needs needs p x := by
        intro ps
        induction ps with
        | nil =>
          exact fun _ done hdone => ⟨[], (List.append_nil _).symm, by rwa [List.append_nil],
            List.nil_subset _, fun x hx => absurd hx List.not_mem_nil⟩
        | cons p ps ihps =>
          intro hps done hdone
          have hp : p ∈ needs t := hps List.mem_cons_self
          obtain ⟨new, hnew, horder, hmem, hneeds⟩ := ih p hp hdone
          obtain ⟨new', hnew', horder', hmem', hneeds'⟩ :=
            ihps (fun q hq => hps (List.mem_cons_of_mem _ hq)) _ horder
          refine ⟨new ++ new', ?_, ?_, ?_, fun x hx => ?_⟩
          · rw [List.foldl_cons, hnew, hnew', List.append_assoc]
          · rwa [← List.append_assoc]
          · rw [← List.append_assoc]
            exact List.cons_subset.mpr ⟨List.mem_append_left _ hmem, hmem'⟩
          · rcases List.mem_append.mp hx with hx | hx
            · exact ⟨p, hp, hneeds x hx⟩
            · exact hneeds' x hx
      obtain ⟨new, hnew, horder, hmem, hneeds⟩ := hfold _ (List.Subset.refl _) done hdone
      have hfresh : t ∉ done ++ new := by
        intro hmem
        rcases List.mem_append.mp hmem with hmem | hmem
        · exact ht hmem
        · obtain ⟨p, hp, hpt⟩ := hneeds t hmem
          exact (Within.intro h).acyclic hp hpt
      refine ⟨new ++ [t], by rw [hnew, List.append_assoc], ?_, by simp, fun x hx => ?_⟩
      · rw [← List.append_assoc]
        exact .concat horder hfresh hmem
      · rcases List.mem_append.mp hx with hx | hx
        · obtain ⟨p, hp, hpx⟩ := hneeds x hx
          exact hpx.head hp
        · rw [List.mem_singleton.mp hx]
          exact .refl

/-- The targets of a goal: those that it needs, each once and after what it needs. -/
theorem visit_nil_spec (h : Within needs n t) :
    InOrder needs (visit needs n t []) ∧ ∀ x, x ∈ visit needs n t [] ↔ Needs needs t x := by
  obtain ⟨new, hnew, horder, hmem, hneeds⟩ := visit_spec h InOrder.nil
  rw [List.nil_append] at hnew horder hmem
  rw [hnew]
  exact ⟨horder, fun x => ⟨hneeds x, horder.mem_of_needs hmem⟩⟩

end Order

/-! ## Making in that order -/

theorem update_failed {n : ℕ} {t : T} {r : List T × σ × Bool} (hr : r.2.2 = false) :
    update sh rules n t r = r := by
  cases n with
  | zero => rfl
  | succ n => rw [update, if_pos (Or.inl hr)]

/-- The end of an update that builds the new targets in their order. -/
def Follows (sh : Shell T C σ) (rules : List (Rule T C)) (done new : List T) (s : σ)
    (r : List T × σ × Bool) : Prop :=
  r.2 = buildAll sh rules new s ∧ (r.2.2 = true → r.1 = done ++ new)

theorem Follows.trans {done new new' : List T} {s : σ} {r r' : List T × σ × Bool}
    (h : Follows sh rules done new s r)
    (hok : r.2.2 = true → Follows sh rules (done ++ new) new' r.2.1 r')
    (hfailed : r.2.2 = false → r' = r) : Follows sh rules done (new ++ new') s r' := by
  obtain ⟨hr, hdone⟩ := h
  rw [Follows, buildAll_append, ← hr]
  cases hcase : r.2.2 with
  | true =>
    obtain ⟨hr', hdone'⟩ := hok hcase
    exact ⟨hr', fun htrue => (hdone' htrue).trans (List.append_assoc _ _ _)⟩
  | false =>
    rw [hfailed hcase]
    exact ⟨rfl, fun htrue => absurd (hcase.symm.trans htrue) Bool.false_ne_true⟩

theorem update_follows {n : ℕ} {t : T} {done : List T} {s : σ} :
    ∃ new, visit (prereqs rules) n t done = done ++ new ∧
      Follows sh rules done new s (update sh rules n t (done, s, true)) := by
  induction n generalizing t done s with
  | zero => exact ⟨[], (List.append_nil _).symm, rfl, fun _ => (List.append_nil _).symm⟩
  | succ n ih =>
    rw [visit, update]
    by_cases ht : t ∈ done
    · rw [if_pos ht, if_pos (Or.inr ht)]
      exact ⟨[], (List.append_nil _).symm, rfl, fun _ => (List.append_nil _).symm⟩
    · have hfold : ∀ (ps : List T) (done : List T) (s : σ),
          ∃ new, ps.foldl (fun done p => visit (prereqs rules) n p done) done = done ++ new ∧
            Follows sh rules done new s
              (ps.foldl (fun r p => update sh rules n p r) (done, s, true)) := by
        intro ps
        induction ps with
        | nil => exact fun done s => ⟨[], (List.append_nil _).symm, rfl,
            fun _ => (List.append_nil _).symm⟩
        | cons p ps ihps =>
          intro done s
          obtain ⟨new, hnew, hfollows⟩ := @ih p done s
          rw [List.foldl_cons, List.foldl_cons, hnew]
          cases hcase : (update sh rules n p (done, s, true)).2.2 with
          | true =>
            obtain ⟨new', hnew', hfollows'⟩ :=
              ihps (done ++ new) (update sh rules n p (done, s, true)).2.1
            refine ⟨new ++ new', by rw [hnew', List.append_assoc], hfollows.trans (fun _ => ?_) ?_⟩
            · have hsame : update sh rules n p (done, s, true) =
                  (done ++ new, (update sh rules n p (done, s, true)).2.1, true) :=
                Prod.ext (hfollows.2 hcase) (Prod.ext rfl hcase)
              rw [hsame]
              exact hfollows'
            · exact fun hfalse => absurd (hcase.symm.trans hfalse) Bool.true_eq_false_eq_False
          | false =>
            have hstay : ∀ (ps : List T) (r : List T × σ × Bool), r.2.2 = false →
                ps.foldl (fun r p => update sh rules n p r) r = r := by
              intro ps
              induction ps with
              | nil => exact fun r _ => rfl
              | cons q ps ihq =>
                intro r hr
                rw [List.foldl_cons, update_failed hr]
                exact ihq r hr
            obtain ⟨new', hnew', -⟩ := ihps (done ++ new) s
            refine ⟨new ++ new', by rw [hnew', List.append_assoc], hfollows.trans (fun htrue => ?_)
              fun _ => hstay ps _ hcase⟩
            exact absurd (hcase.symm.trans htrue) Bool.false_ne_true
      obtain ⟨new, hnew, hfollows⟩ := hfold (prereqs rules t) done s
      have hnot : ¬ ((done, s, true).2.2 = false ∨ t ∈ (done, s, true).1) := by
        simpa using ht
      refine ⟨new ++ [t], by rw [if_neg ht, hnew, List.append_assoc], ?_⟩
      rw [if_neg hnot]
      refine hfollows.trans (fun htrue => ?_) fun hfalse => ?_
      · rw [if_pos htrue]
        refine ⟨?_, fun _ => congrArg (· ++ [t]) (hfollows.2 htrue)⟩
        rw [buildAll]
        rcases build sh rules t _ with ⟨s', _ | _⟩ <;> rfl
      · rw [if_neg (by rw [hfalse]; exact Bool.false_ne_true)]

/-- Making a goal builds its targets one after the other. -/
theorem make_eq {goal : T} {s : σ} : make sh rules goal s =
    buildAll sh rules (visit (prereqs rules) (rules.length + 1) goal []) s := by
  obtain ⟨new, hnew, hr, -⟩ := @update_follows _ _ _ _ sh rules (rules.length + 1) goal [] s
  rw [make, hr, hnew, List.nil_append]

/-- The rule for a list of targets: what is done is kept, and so is what a failure leaves. -/
theorem buildAll_rule (I : List T → σ → Prop) (F : σ → Prop) {ts : List T} {s : σ}
    (hts : InOrder (prereqs rules) ts) (hstart : I [] s)
    (hok : ∀ {done t s s'}, InOrder (prereqs rules) (done ++ [t]) → t ∈ ts → I done s →
      build sh rules t s = (s', true) → I (done ++ [t]) s')
    (hfailed : ∀ {done t s s'}, InOrder (prereqs rules) (done ++ [t]) → t ∈ ts → I done s →
      build sh rules t s = (s', false) → F s') :
    if (buildAll sh rules ts s).2 then I ts (buildAll sh rules ts s).1
    else F (buildAll sh rules ts s).1 := by
  induction hts with
  | nil => exact hstart
  | concat rest fresh after ih =>
    rename_i done t
    have ih := ih (fun horder hmem => hok horder (List.mem_append_left _ hmem))
      fun horder hmem => hfailed horder (List.mem_append_left _ hmem)
    have horder := InOrder.concat rest fresh after
    rw [buildAll_append]
    cases hcase : (buildAll sh rules done s).2 with
    | false =>
      rw [hcase] at ih
      simpa [hcase] using ih
    | true =>
      rw [hcase, if_pos rfl] at ih
      rw [if_pos rfl, buildAll]
      cases hbuild : build sh rules t (buildAll sh rules done s).1 with
      | mk s' ok =>
        cases ok with
        | true => exact hok horder (List.mem_append_right _ (List.mem_singleton_self t)) ih hbuild
        | false => exact hfailed horder (List.mem_append_right _ (List.mem_singleton_self t)) ih hbuild

end Making

end Make
