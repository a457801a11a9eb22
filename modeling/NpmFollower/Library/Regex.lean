import Mathlib

/-! # Leftmost-first regular expressions

A pattern gives its candidates in the order in which a backtracking matcher
tries them: the first alternative before the second, and more repetitions
before fewer. A full match is the first candidate that leaves nothing.
-/

namespace Regex

variable {α : Type}

inductive Pattern (α : Type) where
  | empty
  | cls (p : α → Bool)
  | seq (a b : Pattern α)
  | alt (a b : Pattern α)
  | star (a : Pattern α)
  | group (n : ℕ) (a : Pattern α)

/-- The texts of the groups, the last one first. -/
abbrev Captures (α : Type) := List (ℕ × List α)

/-- The candidates of at most `fuel` repetitions. One that consumes nothing is not repeated. -/
def repeats (step : List α → List (Captures α × List α)) :
    ℕ → List α → List (Captures α × List α)
  | 0, s => [([], s)]
  | fuel + 1, s =>
    ((step s).filter fun c => c.2.length < s.length).flatMap (fun c =>
      (repeats step fuel c.2).map fun d => (d.1 ++ c.1, d.2)) ++ [([], s)]

namespace Pattern

/-- Each candidate with its groups and with what it leaves. -/
def candidates : Pattern α → List α → List (Captures α × List α)
  | empty, s => [([], s)]
  | cls _, [] => []
  | cls p, c :: s => if p c then [([], s)] else []
  | seq a b, s => (a.candidates s).flatMap fun c =>
      (b.candidates c.2).map fun d => (d.1 ++ c.1, d.2)
  | alt a b, s => a.candidates s ++ b.candidates s
  | star a, s => repeats a.candidates s.length s
  | group n a, s => (a.candidates s).map fun c => ((n, s.take (s.length - c.2.length)) :: c.1, c.2)

def plus (a : Pattern α) : Pattern α := seq a (star a)

def opt (a : Pattern α) : Pattern α := alt a empty

/-- Pieces with a separator between them. -/
def sepBy [DecidableEq α] (x : α) (a : Pattern α) : Pattern α :=
  seq a (star (seq (cls fun y => y == x) a))

/-- The groups of the first candidate that leaves nothing. -/
def exec (a : Pattern α) (s : List α) : Option (Captures α) :=
  ((a.candidates s).find? fun c => c.2.isEmpty).map Prod.fst

/-- The texts that a pattern matches in full. -/
def lang : Pattern α → Language α
  | empty => 1
  | cls p => {w | ∃ c, p c = true ∧ w = [c]}
  | seq a b => a.lang * b.lang
  | alt a b => a.lang + b.lang
  | star a => KStar.kstar a.lang
  | group _ a => a.lang

/-- A pattern without groups. -/
def Plain : Pattern α → Prop
  | empty => True
  | cls _ => True
  | seq a b => a.Plain ∧ b.Plain
  | alt a b => a.Plain ∧ b.Plain
  | star a => a.Plain
  | group _ _ => False

section Language

/-- Repetitions leave what is behind a text of the closure. -/
theorem mem_repeats_iff {step : List α → List (Captures α × List α)} {L : Language α}
    (hstep : ∀ s r, (∃ c, (c, r) ∈ step s) ↔ ∃ w ∈ L, w ++ r = s) {fuel : ℕ} {s r : List α}
    (hfuel : s.length ≤ fuel) :
    (∃ c, (c, r) ∈ repeats step fuel s) ↔ ∃ w ∈ KStar.kstar L, w ++ r = s := by
  induction fuel generalizing s with
  | zero =>
    have hs : s = [] := List.length_eq_zero_iff.mp (by omega)
    subst hs
    simp only [repeats, List.mem_singleton, Prod.mk.injEq, exists_and_right, exists_eq, true_and,
      List.append_eq_nil_iff]
    constructor
    · rintro rfl
      exact ⟨[], Language.nil_mem_kstar L, rfl, rfl⟩
    · rintro ⟨w, -, -, rfl⟩
      rfl
  | succ fuel ih =>
    constructor
    · rintro ⟨c, hc⟩
      rw [repeats, List.mem_append] at hc
      rcases hc with hmore | hlast
      · obtain ⟨⟨c', s'⟩, hfirst, hrest⟩ := List.mem_flatMap.mp hmore
        obtain ⟨hmem, hlt⟩ := List.mem_filter.mp hfirst
        obtain ⟨⟨d, r'⟩, hd, heq⟩ := List.mem_map.mp hrest
        cases heq
        obtain ⟨w, hw, rfl⟩ := (hstep s s').mp ⟨c', hmem⟩
        have hlen : s'.length ≤ fuel := by
          simp only [decide_eq_true_eq, List.length_append] at hlt hfuel
          omega
        obtain ⟨v, hv, rfl⟩ := (ih hlen).mp ⟨d, hd⟩
        obtain ⟨pieces, rfl, hpieces⟩ := Language.mem_kstar.mp hv
        refine ⟨w ++ pieces.flatten, Language.mem_kstar.mpr ⟨w :: pieces, rfl, ?_⟩,
          List.append_assoc ..⟩
        intro y hy
        rcases List.mem_cons.mp hy with rfl | hy
        · exact hw
        · exact hpieces y hy
      · cases List.mem_singleton.mp hlast
        exact ⟨[], Language.nil_mem_kstar L, rfl⟩
    · rintro ⟨w, hw, rfl⟩
      rw [Language.mem_kstar_iff_exists_nonempty] at hw
      obtain ⟨pieces, rfl, hpieces⟩ := hw
      cases pieces with
      | nil => exact ⟨[], by simp [repeats]⟩
      | cons piece pieces =>
        obtain ⟨hpiece, hne⟩ := hpieces piece List.mem_cons_self
        have hpos : 0 < piece.length := List.length_pos_iff.mpr hne
        have happ : (piece :: pieces).flatten ++ r = piece ++ (pieces.flatten ++ r) := by simp
        rw [happ] at hfuel ⊢
        obtain ⟨c, hc⟩ := (hstep _ (pieces.flatten ++ r)).mpr ⟨piece, hpiece, rfl⟩
        have hlen : (pieces.flatten ++ r).length ≤ fuel := by
          simp only [List.length_append] at hfuel ⊢
          omega
        obtain ⟨d, hd⟩ := (ih hlen).mpr ⟨pieces.flatten, Language.mem_kstar.mpr
          ⟨pieces, rfl, fun y hy => (hpieces y (List.mem_cons_of_mem _ hy)).1⟩, rfl⟩
        refine ⟨d ++ c, ?_⟩
        rw [repeats, List.mem_append]
        left
        have hmem : (c, pieces.flatten ++ r) ∈ (step (piece ++ (pieces.flatten ++ r))).filter
            fun c => c.2.length < (piece ++ (pieces.flatten ++ r)).length := by
          rw [List.mem_filter]
          refine ⟨hc, ?_⟩
          simp only [List.length_append, decide_eq_true_eq]
          omega
        exact List.mem_flatMap.mpr ⟨_, hmem, List.mem_map.mpr ⟨_, hd, rfl⟩⟩

/-- What a candidate leaves is behind a text of the language. -/
theorem mem_candidates_iff (a : Pattern α) (s r : List α) :
    (∃ c, (c, r) ∈ a.candidates s) ↔ ∃ w ∈ a.lang, w ++ r = s := by
  induction a generalizing s r with
  | empty => simp [candidates, lang, Language.mem_one, eq_comm]
  | cls p =>
    cases s with
    | nil =>
      simp only [candidates, List.not_mem_nil, exists_false, false_iff]
      rintro ⟨w, ⟨c, -, rfl⟩, heq⟩
      cases heq
    | cons c s =>
      rw [candidates]
      constructor
      · split_ifs with hp
        · rintro ⟨d, hd⟩
          cases List.mem_singleton.mp hd
          exact ⟨[c], ⟨c, hp, rfl⟩, rfl⟩
        · rintro ⟨d, hd⟩
          cases hd
      · rintro ⟨w, ⟨d, hp, rfl⟩, heq⟩
        cases heq
        exact ⟨[], by simp [hp]⟩
  | seq a b iha ihb =>
    simp only [candidates, lang, Language.mem_mul]
    constructor
    · rintro ⟨c, hc⟩
      obtain ⟨⟨c', s'⟩, hfirst, hrest⟩ := List.mem_flatMap.mp hc
      obtain ⟨⟨d, r'⟩, hd, heq⟩ := List.mem_map.mp hrest
      cases heq
      obtain ⟨w, hw, rfl⟩ := (iha s s').mp ⟨c', hfirst⟩
      obtain ⟨v, hv, rfl⟩ := (ihb s' _).mp ⟨d, hd⟩
      exact ⟨w ++ v, ⟨w, hw, v, hv, rfl⟩, List.append_assoc ..⟩
    · rintro ⟨_, ⟨w, hw, v, hv, rfl⟩, rfl⟩
      rw [List.append_assoc]
      obtain ⟨c, hc⟩ := (iha _ (v ++ r)).mpr ⟨w, hw, rfl⟩
      obtain ⟨d, hd⟩ := (ihb _ r).mpr ⟨v, hv, rfl⟩
      exact ⟨d ++ c, List.mem_flatMap.mpr ⟨_, hc, List.mem_map.mpr ⟨_, hd, rfl⟩⟩⟩
  | alt a b iha ihb =>
    simp only [candidates, lang, List.mem_append, exists_or, iha, ihb, Language.mem_add, or_and_right]
  | star a ih => exact mem_repeats_iff ih le_rfl
  | group n a ih =>
    rw [lang, ← ih, candidates]
    constructor
    · rintro ⟨c, hc⟩
      obtain ⟨⟨d, r'⟩, hd, heq⟩ := List.mem_map.mp hc
      cases heq
      exact ⟨d, hd⟩
    · rintro ⟨c, hc⟩
      exact ⟨_, List.mem_map.mpr ⟨_, hc, rfl⟩⟩

/-- A text is matched in full exactly when it is of the language. -/
theorem exec_isSome_iff (a : Pattern α) (s : List α) : (a.exec s).isSome ↔ s ∈ a.lang := by
  have hnil : (∃ w ∈ a.lang, w ++ [] = s) ↔ s ∈ a.lang := by simp
  rw [← hnil, ← mem_candidates_iff, exec, Option.isSome_map, List.find?_isSome]
  constructor
  · rintro ⟨⟨c, r⟩, hmem, hempty⟩
    cases List.isEmpty_iff.mp hempty
    exact ⟨c, hmem⟩
  · rintro ⟨c, hmem⟩
    exact ⟨(c, []), hmem, rfl⟩

theorem exec_eq_none_iff (a : Pattern α) (s : List α) : a.exec s = none ↔ s ∉ a.lang := by
  rw [← exec_isSome_iff, Option.isSome_iff_ne_none, not_not]

theorem captures_repeats {step : List α → List (Captures α × List α)}
    (hstep : ∀ s, ∀ c ∈ step s, c.1 = []) (fuel : ℕ) (s : List α) :
    ∀ c ∈ repeats step fuel s, c.1 = [] := by
  induction fuel generalizing s with
  | zero => simp [repeats]
  | succ fuel ih =>
    intro c hc
    rw [repeats, List.mem_append] at hc
    rcases hc with hmore | hlast
    · obtain ⟨d, hd, hrest⟩ := List.mem_flatMap.mp hmore
      obtain ⟨e, he, rfl⟩ := List.mem_map.mp hrest
      rw [hstep s d (List.mem_of_mem_filter hd), ih d.2 e he, List.append_nil]
    · rw [List.mem_singleton.mp hlast]

/-- Without groups nothing is captured. -/
theorem Plain.captures {a : Pattern α} (ha : a.Plain) (s : List α) :
    ∀ c ∈ a.candidates s, c.1 = [] := by
  induction a generalizing s with
  | empty => simp [candidates]
  | cls p => cases s <;> simp [candidates]
  | seq a b iha ihb =>
    intro c hc
    obtain ⟨d, hd, hrest⟩ := List.mem_flatMap.mp hc
    obtain ⟨e, he, rfl⟩ := List.mem_map.mp hrest
    rw [iha ha.1 s d hd, ihb ha.2 d.2 e he, List.append_nil]
  | alt a b iha ihb =>
    intro c hc
    exact (List.mem_append.mp hc).elim (iha ha.1 s c) (ihb ha.2 s c)
  | star a ih => exact captures_repeats (ih ha) s.length s
  | group n a ih => exact ha.elim

theorem mem_lang_star_cls (p : α → Bool) (w : List α) :
    w ∈ (star (cls p)).lang ↔ ∀ x ∈ w, p x = true := by
  rw [lang, Language.mem_kstar]
  constructor
  · rintro ⟨pieces, rfl, hpieces⟩ x hx
    obtain ⟨piece, hpiece, hmem⟩ := List.mem_flatten.mp hx
    obtain ⟨c, hc, rfl⟩ := hpieces piece hpiece
    rwa [List.mem_singleton.mp hmem]
  · intro hw
    refine ⟨w.map fun x => [x], by rw [← List.flatMap_def, List.flatMap_singleton'], ?_⟩
    intro piece hpiece
    obtain ⟨x, hx, rfl⟩ := List.mem_map.mp hpiece
    exact ⟨x, hw x hx, rfl⟩

theorem mem_lang_plus_cls (p : α → Bool) (w : List α) :
    w ∈ (plus (cls p)).lang ↔ w ≠ [] ∧ ∀ x ∈ w, p x = true := by
  rw [plus, lang, Language.mem_mul]
  constructor
  · rintro ⟨_, ⟨c, hc, rfl⟩, v, hv, rfl⟩
    refine ⟨by simp, ?_⟩
    intro x hx
    rcases List.mem_cons.mp hx with rfl | hx
    · exact hc
    · exact (mem_lang_star_cls p v).mp hv x hx
  · rintro ⟨hne, hw⟩
    obtain ⟨c, v, rfl⟩ := List.exists_cons_of_ne_nil hne
    exact ⟨[c], ⟨c, hw c List.mem_cons_self, rfl⟩, v,
      (mem_lang_star_cls p v).mpr fun x hx => hw x (List.mem_cons_of_mem _ hx), rfl⟩

theorem intercalate_eq_append_flatten (x : α) (piece : List α) (pieces : List (List α)) :
    [x].intercalate (piece :: pieces) = piece ++ (pieces.map fun w => x :: w).flatten := by
  induction pieces generalizing piece with
  | nil => simp
  | cons first pieces ih => rw [List.intercalate_cons_cons, ih]; simp

theorem mem_lang_sepBy [DecidableEq α] (x : α) (a : Pattern α) (w : List α) :
    w ∈ (sepBy x a).lang ↔
      ∃ piece pieces, (∀ v ∈ piece :: pieces, v ∈ a.lang) ∧ w = [x].intercalate (piece :: pieces) := by
  simp only [sepBy, lang, Language.mem_mul, Language.mem_kstar, intercalate_eq_append_flatten]
  constructor
  · rintro ⟨piece, hpiece, _, ⟨chunks, rfl, hchunks⟩, rfl⟩
    have hsplit : ∃ pieces : List (List α), (∀ v ∈ pieces, v ∈ a.lang) ∧
        chunks = pieces.map fun v => x :: v := by
      induction chunks with
      | nil => exact ⟨[], by simp, rfl⟩
      | cons chunk chunks ih =>
        obtain ⟨pieces, hpieces, rfl⟩ := ih fun y hy => hchunks y (List.mem_cons_of_mem _ hy)
        obtain ⟨_, ⟨c, hc, rfl⟩, v, hv, rfl⟩ := hchunks chunk List.mem_cons_self
        exact ⟨v :: pieces, List.forall_mem_cons.mpr ⟨hv, hpieces⟩, by rw [beq_iff_eq.mp hc]; rfl⟩
    obtain ⟨pieces, hpieces, rfl⟩ := hsplit
    exact ⟨piece, pieces, List.forall_mem_cons.mpr ⟨hpiece, hpieces⟩, rfl⟩
  · rintro ⟨piece, pieces, hpieces, rfl⟩
    refine ⟨piece, hpieces piece List.mem_cons_self, _, ⟨_, rfl, ?_⟩, rfl⟩
    intro y hy
    obtain ⟨v, hv, rfl⟩ := List.mem_map.mp hy
    exact ⟨[x], ⟨x, beq_self_eq_true x, rfl⟩, v, hpieces v (List.mem_cons_of_mem _ hv), rfl⟩

/-- A run of a class ends where an element outside of it follows. -/
theorem eq_of_append_eq_append {p : α → Bool} {v t w r : List α} (h : v ++ t = w ++ r)
    (hv : ∀ x ∈ v, p x = true) (hw : ∀ x ∈ w, p x = true) (ht : ∀ x ∈ t.head?, p x = false)
    (hr : ∀ x ∈ r.head?, p x = false) : t = r := by
  have hrun {u z : List α} (hu : ∀ x ∈ u, p x = true) (hz : ∀ x ∈ z.head?, p x = false) :
      (u ++ z).dropWhile p = z := by
    rw [List.dropWhile_append_of_pos hu]
    cases z with
    | nil => rfl
    | cons x z => rw [List.dropWhile_cons, hz x rfl, if_neg Bool.false_ne_true]
  rw [← hrun hv ht, h, hrun hw hr]

end Language

section Search

variable {β γ : Type}

theorem findSome?_flatMap (f : β → List γ) (g : γ → Option α) (l : List β) :
    (l.flatMap f).findSome? g = l.findSome? fun x => (f x).findSome? g := by
  induction l with
  | nil => rfl
  | cons x l ih =>
    rw [List.flatMap_cons, List.findSome?_append, ih, List.findSome?_cons]
    cases (f x).findSome? g <;> rfl

theorem findSome?_congr {f g : β → Option γ} {l : List β} (h : ∀ x ∈ l, f x = g x) :
    l.findSome? f = l.findSome? g := by
  induction l with
  | nil => rfl
  | cons x l ih =>
    rw [List.findSome?_cons, List.findSome?_cons, h x List.mem_cons_self,
      ih fun y hy => h y (List.mem_cons_of_mem _ hy)]

/-- A search whose only possible result is found. -/
theorem findSome?_eq_of_forall {f : β → Option γ} {l : List β} {x : Option γ}
    (hsome : ∃ a ∈ l, f a = x) (hall : ∀ a ∈ l, f a = x ∨ f a = none) : l.findSome? f = x := by
  cases x with
  | none =>
    rw [List.findSome?_eq_none_iff]
    exact fun a ha => (hall a ha).elim id id
  | some y =>
    obtain ⟨a, ha, hy⟩ := hsome
    obtain ⟨z, hz⟩ := Option.isSome_iff_exists.mp
      ((List.findSome?_isSome_iff (f := f)).mpr ⟨a, ha, by rw [hy]; rfl⟩)
    obtain ⟨e, he, hez⟩ := List.exists_of_findSome?_eq_some hz
    rcases hall e he with hey | hen
    · rw [hz, ← hez, hey]
    · rw [hen] at hez
      cases hez

end Search

section Exec

variable (a b c : Pattern α) (s : List α)

/-- The candidates of the first part are tried one after the other. -/
theorem exec_seq : (seq a b).exec s =
    (a.candidates s).findSome? fun d => (b.exec d.2).map fun e => e ++ d.1 := by
  rw [exec, candidates, List.find?_flatMap, List.map_findSome?]
  congr 1
  funext d
  rw [Function.comp_apply, List.find?_map, exec, Option.map_map, Option.map_map]
  rfl

theorem exec_alt : (alt a b).exec s = (a.exec s).or (b.exec s) := by
  rw [exec, candidates, List.find?_append, Option.map_or, exec, exec]

theorem exec_seq_alt : (seq (alt a b) c).exec s = ((seq a c).exec s).or ((seq b c).exec s) := by
  rw [exec_seq, candidates, List.findSome?_append, exec_seq, exec_seq]

@[simp] theorem exec_seq_empty : (seq empty a).exec s = a.exec s := by
  rw [exec_seq]
  simp [candidates]

@[simp] theorem exec_empty : (empty : Pattern α).exec s = if s.isEmpty then some [] else none := by
  cases s <;> simp [exec, candidates]

theorem exec_seq_assoc : (seq (seq a b) c).exec s = (seq a (seq b c)).exec s := by
  rw [exec_seq, exec_seq, candidates, findSome?_flatMap]
  congr 1
  funext d
  rw [exec_seq, List.map_findSome?, List.findSome?_map]
  congr 1
  funext e
  simp [Option.map_map, Function.comp_def]

@[simp] theorem exec_seq_cls_nil (p : α → Bool) : (seq (cls p) b).exec [] = none := by
  rw [exec_seq]
  rfl

@[simp] theorem exec_seq_cls_cons (p : α → Bool) (x : α) :
    (seq (cls p) b).exec (x :: s) = if p x then b.exec s else none := by
  rw [exec_seq, candidates]
  split_ifs <;> simp

theorem exec_seq_group (n : ℕ) : (seq (group n a) b).exec s =
    (a.candidates s).findSome? fun d => (b.exec d.2).map fun e =>
      e ++ (n, s.take (s.length - d.2.length)) :: d.1 := by
  rw [exec_seq, candidates, List.findSome?_map]
  rfl

variable {a b s}

section Unique

variable {w r : List α} (ha : a.Plain) (hw : w ∈ a.lang)
  (hunique : ∀ v t, v ++ t = w ++ r → v ∈ a.lang → t ∈ b.lang → t = r)

include ha hw hunique in
/-- A part whose end is fixed by what follows. -/
theorem exec_seq_of_unique : (seq a b).exec (w ++ r) = b.exec r := by
  obtain ⟨d, hd⟩ := (mem_candidates_iff a (w ++ r) r).mpr ⟨w, hw, rfl⟩
  rw [exec_seq]
  apply findSome?_eq_of_forall
  · exact ⟨_, hd, by rw [ha.captures _ _ hd]; simp⟩
  · intro e he
    by_cases heq : e.2 = r
    · left
      rw [ha.captures _ _ he, heq]
      simp
    · right
      obtain ⟨v, hv, happ⟩ := (mem_candidates_iff a (w ++ r) e.2).mp ⟨e.1, he⟩
      rw [(exec_eq_none_iff b e.2).mpr fun ht => heq (hunique v e.2 happ hv ht), Option.map_none]

include ha hw hunique in
/-- Its text is captured. -/
theorem exec_seq_group_of_unique (n : ℕ) :
    (seq (group n a) b).exec (w ++ r) = (b.exec r).map fun e => e ++ [(n, w)] := by
  have htext : (w ++ r).take ((w ++ r).length - r.length) = w := by simp
  obtain ⟨d, hd⟩ := (mem_candidates_iff a (w ++ r) r).mpr ⟨w, hw, rfl⟩
  rw [exec_seq_group]
  apply findSome?_eq_of_forall
  · refine ⟨_, hd, ?_⟩
    rw [ha.captures _ _ hd]
    simp only [htext]
  · intro e he
    by_cases heq : e.2 = r
    · left
      rw [ha.captures _ _ he, heq, htext]
    · right
      obtain ⟨v, hv, happ⟩ := (mem_candidates_iff a (w ++ r) e.2).mp ⟨e.1, he⟩
      rw [(exec_eq_none_iff b e.2).mpr fun ht => heq (hunique v e.2 happ hv ht), Option.map_none]

end Unique

theorem exec_group_of_plain (ha : a.Plain) (hs : s ∈ a.lang) (n : ℕ) :
    (group n a).exec s = some [(n, s)] := by
  obtain ⟨d, hd⟩ := Option.isSome_iff_exists.mp ((exec_isSome_iff a s).mpr hs)
  obtain ⟨⟨e, r⟩, hfind, rfl⟩ := Option.map_eq_some_iff.mp hd
  have hempty : r.isEmpty := by simpa using List.find?_some hfind
  have hr : r = [] := List.isEmpty_iff.mp hempty
  have he : e = [] := ha.captures s _ (List.mem_of_find?_eq_some hfind)
  subst hr he
  rw [exec, candidates, List.find?_map]
  simp only [Function.comp_def, hfind, Option.map_some, List.length_nil, Nat.sub_zero,
    List.take_length]

theorem candidates_cls_of_head {p : α → Bool} {r : List α} (hr : ∀ x ∈ r.head?, p x = false) :
    (cls p).candidates r = [] := by
  cases r with
  | nil => rfl
  | cons x r => rw [candidates, hr x rfl, if_neg Bool.false_ne_true]

theorem repeats_cls {p : α → Bool} {r : List α} (hr : ∀ x ∈ r.head?, p x = false) {run : List α}
    (hrun : ∀ x ∈ run, p x = true) {fuel : ℕ} (hfuel : run.length ≤ fuel) :
    repeats (cls p).candidates fuel (run ++ r) =
      (List.range (run.length + 1)).reverse.map fun k => ([], (run ++ r).drop k) := by
  induction run generalizing fuel with
  | nil =>
    cases fuel with
    | zero => rfl
    | succ fuel => rw [repeats, List.nil_append, candidates_cls_of_head hr]; rfl
  | cons x run ih =>
    obtain ⟨fuel, rfl⟩ : ∃ f, fuel = f + 1 := by
      cases fuel with
      | zero => simp at hfuel
      | succ f => exact ⟨f, rfl⟩
    have hx : p x = true := hrun x List.mem_cons_self
    have hstep : (cls p).candidates (x :: (run ++ r)) = [([], run ++ r)] := by
      rw [candidates, if_pos hx]
    rw [List.cons_append, repeats, hstep, List.length_cons, List.range_succ_eq_map,
      List.reverse_cons, List.map_append]
    have hlen : run.length ≤ fuel := by simpa using hfuel
    have hrest := ih (fun y hy => hrun y (List.mem_cons_of_mem _ hy)) hlen
    simp [hrest, Function.comp_def, List.map_reverse]

/-- The repetitions of a class take a run of it, and then less and less of the run. -/
theorem candidates_star_cls {p : α → Bool} {run r : List α} (hrun : ∀ x ∈ run, p x = true)
    (hr : ∀ x ∈ r.head?, p x = false) : (star (cls p)).candidates (run ++ r) =
      (List.range (run.length + 1)).reverse.map fun k => ([], (run ++ r).drop k) :=
  repeats_cls hr hrun (by simp)

/-- A run that has to have an element. -/
theorem candidates_plus_cls {p : α → Bool} {run r : List α} (hrun : ∀ x ∈ run, p x = true)
    (hr : ∀ x ∈ r.head?, p x = false) : (plus (cls p)).candidates (run ++ r) =
      (List.range run.length).reverse.map fun k => ([], (run ++ r).drop (k + 1)) := by
  cases run with
  | nil => rw [plus, candidates, List.nil_append, candidates_cls_of_head hr]; rfl
  | cons x run =>
    have hx : p x = true := hrun x List.mem_cons_self
    have hstep : (cls p).candidates (x :: (run ++ r)) = [([], run ++ r)] := by
      rw [candidates, if_pos hx]
    rw [plus, candidates, List.cons_append, hstep, List.flatMap_singleton,
      candidates_star_cls (fun y hy => hrun y (List.mem_cons_of_mem _ hy)) hr, List.map_map]
    rfl

/-- A captured run is as long as what follows allows. -/
theorem exec_group_plus_cls {p : α → Bool} {b : Pattern α} {run r : List α} (n : ℕ)
    (hrun : ∀ x ∈ run, p x = true) (hr : ∀ x ∈ r.head?, p x = false) :
    (seq (group n (plus (cls p))) b).exec (run ++ r) =
      (List.range run.length).reverse.findSome? fun k =>
        (b.exec ((run ++ r).drop (k + 1))).map fun e => e ++ [(n, run.take (k + 1))] := by
  rw [exec_seq_group, candidates_plus_cls hrun hr, List.findSome?_map]
  apply findSome?_congr
  intro k hk
  have hlt : k < run.length := List.mem_range.mp (List.mem_reverse.mp hk)
  have htake : (run ++ r).length - ((run ++ r).drop (k + 1)).length = k + 1 := by
    rw [List.length_drop, List.length_append]
    omega
  rw [Function.comp_apply]
  simp only [htake, List.take_append_of_le_length (show k + 1 ≤ run.length by omega)]

/-- The whole run is taken when what follows matches behind it. -/
theorem exec_group_plus_cls_of_some {p : α → Bool} {b : Pattern α} {run r : List α} (n : ℕ)
    (hrun : ∀ x ∈ run, p x = true) (hr : ∀ x ∈ r.head?, p x = false) (hne : run ≠ [])
    {e : Captures α} (hb : b.exec r = some e) :
    (seq (group n (plus (cls p))) b).exec (run ++ r) = some (e ++ [(n, run)]) := by
  obtain ⟨k, hk⟩ : ∃ k, run.length = k + 1 :=
    ⟨run.length - 1, by have := List.length_pos_iff.mpr hne; omega⟩
  have hdrop : (run ++ r).drop (k + 1) = r := by rw [← hk, List.drop_left]
  have htake : run.take (k + 1) = run := by rw [← hk, List.take_length]
  rw [exec_group_plus_cls n hrun hr, hk, List.range_succ, List.reverse_append]
  simp [hdrop, htake, hb]

/-- The run without its last element is taken when what follows matches only behind that. -/
theorem exec_group_plus_cls_of_none {p : α → Bool} {b : Pattern α} {run r : List α} {x : α} (n : ℕ)
    (hrun : ∀ y ∈ run ++ [x], p y = true) (hr : ∀ y ∈ r.head?, p y = false) (hne : run ≠ [])
    (hb : b.exec r = none) {e : Captures α} (hb' : b.exec (x :: r) = some e) :
    (seq (group n (plus (cls p))) b).exec (run ++ x :: r) = some (e ++ [(n, run)]) := by
  obtain ⟨k, hk⟩ : ∃ k, run.length = k + 1 :=
    ⟨run.length - 1, by have := List.length_pos_iff.mpr hne; omega⟩
  have happ : run ++ x :: r = (run ++ [x]) ++ r := by simp
  have hdrop : ((run ++ [x]) ++ r).drop (k + 1 + 1) = r := by
    rw [← hk]
    exact List.drop_left' (by simp)
  have hdrop' : ((run ++ [x]) ++ r).drop (k + 1) = x :: r := by rw [← happ, ← hk, List.drop_left]
  have htake' : (run ++ [x]).take (k + 1) = run := by rw [← hk, List.take_left]
  rw [happ, exec_group_plus_cls n hrun hr, List.length_append, List.length_singleton, hk,
    List.range_succ, List.range_succ, List.reverse_append, List.reverse_append]
  simp only [List.reverse_cons, List.reverse_nil, List.nil_append,
    List.cons_append, List.findSome?_cons, hdrop, hdrop', htake', hb, hb', Option.map_none,
    Option.map_some]

end Exec

end Pattern

end Regex
