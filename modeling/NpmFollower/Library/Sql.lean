import Mathlib

/-! # Values of SQL

A nullable value is an option, and a condition on nullable values may be unknown.
A CHECK constraint rejects what is false and nothing else. An array has its
dimensions and elements that may be null.
-/

namespace Sql

variable {α β ε : Type}

/-! ## Conditions -/

/-- `none` is unknown. -/
abbrev Truth := Option Bool

namespace Truth

def and : Truth → Truth → Truth
  | some false, _ => some false
  | _, some false => some false
  | some true, some true => some true
  | _, _ => none

def or : Truth → Truth → Truth
  | some true, _ => some true
  | _, some true => some true
  | some false, some false => some false
  | _, _ => none

def not (t : Truth) : Truth := t.map (!·)

end Truth

def isNull (a : Option α) : Truth := some a.isNone

def isNotNull (a : Option α) : Truth := some a.isSome

/-- The operator `=`. -/
def equals [DecidableEq α] (a b : Option α) : Truth :=
  match a, b with
  | some a, some b => some (decide (a = b))
  | _, _ => none

/-- A value passes a CHECK constraint. -/
def Passes (t : Truth) : Prop := t ≠ some false

instance (t : Truth) : Decidable (Passes t) := inferInstanceAs (Decidable (t ≠ some false))

@[simp] theorem passes_and (s t : Truth) : Passes (s.and t) ↔ Passes s ∧ Passes t := by
  rcases s with _ | _ | _ <;> rcases t with _ | _ | _ <;> decide

@[simp] theorem passes_or (s t : Truth) : Passes (s.or t) ↔ Passes s ∨ Passes t := by
  rcases s with _ | _ | _ <;> rcases t with _ | _ | _ <;> decide

@[simp] theorem passes_some (b : Bool) : Passes (some b) ↔ b = true := by
  cases b <;> decide

@[simp] theorem passes_not_some (b : Bool) : Passes (Truth.not (some b)) ↔ b = false := by
  cases b <;> decide

@[simp] theorem passes_isNull (a : Option α) : Passes (isNull a) ↔ a = none := by
  simp [isNull]

@[simp] theorem passes_isNotNull (a : Option α) : Passes (isNotNull a) ↔ a ≠ none := by
  simp [isNotNull, Option.isSome_iff_ne_none]

/-- An unknown comparison passes. -/
@[simp] theorem passes_equals [DecidableEq α] (a : Option α) (b : α) :
    Passes (equals a (some b)) ↔ a = none ∨ a = some b := by
  cases a with
  | none => simp [equals, Passes]
  | some a => simp [equals]

@[simp] theorem passes_not_equals [DecidableEq α] (a : Option α) (b : α) :
    Passes (equals a (some b)).not ↔ a ≠ some b := by
  cases a with
  | none => simp [equals, Passes, Truth.not]
  | some a => simp [equals]

/-! ## Arrays -/

structure PgArray (α : Type) where
  dimensions : List ℕ
  elements : List (Option α)
  /-- An array without elements has no dimension. -/
  positive : 0 ∉ dimensions
  size : elements.length = if dimensions = [] then 0 else dimensions.prod

namespace PgArray

/-- `array_length(.., 1)`. -/
def length (a : PgArray α) : Option ℕ := a.dimensions.head?

def ofList (l : List α) : PgArray α where
  dimensions := if l = [] then [] else [l.length]
  elements := l.map some
  positive := by
    split_ifs with hl
    · simp
    · have hpos := List.length_pos_iff.mpr hl
      simp only [List.mem_singleton]
      omega
  size := by
    by_cases hl : l = []
    · simp [hl]
    · simp [hl]

/-- The elements in order, as a client reads them that knows arrays of one dimension only. -/
def read (decode : Option α → Except String β) (a : PgArray α) : Except String (List β) :=
  if a.dimensions = [] then .ok []
  else if a.dimensions.length = 1 then a.elements.mapM decode
  else .error "multi-dimensional arrays are not supported"

theorem length_ofList_ne_none {l : List α} (hl : l ≠ []) : (ofList l).length ≠ none := by
  simp [length, ofList, hl]

theorem mem_elements_ofList {l : List α} {e : Option α} :
    e ∈ (ofList l).elements ↔ ∃ x ∈ l, some x = e := List.mem_map

theorem mapM_ok {f : α → Except ε β} {g : β → α} {l : List β} (h : ∀ x ∈ l, f (g x) = .ok x) :
    (l.map g).mapM f = .ok l := by
  induction l with
  | nil => rfl
  | cons x l ih =>
    rw [List.map_cons, List.mapM_cons, h x List.mem_cons_self,
      ih fun y hy => h y (List.mem_cons_of_mem x hy)]
    rfl

/-- What is written element by element is read back. -/
theorem read_ofList {decode : Option α → Except String β} {encode : β → α} {l : List β}
    (h : ∀ x ∈ l, decode (some (encode x)) = .ok x) :
    (ofList (l.map encode)).read decode = .ok l := by
  by_cases hl : l = []
  · subst hl
    rfl
  · have hmap : (l.map fun x => some (encode x)).mapM decode = .ok l := mapM_ok h
    have helements : (ofList (l.map encode)).elements = l.map fun x => some (encode x) := by
      simp [ofList]
    rw [read, if_neg (by simp [ofList, hl]), if_pos (by simp [ofList, hl])]
    rw [helements, hmap]

end PgArray

/-! ## Reading -/

/-- The client reads a value. -/
def Reads (r : Except ε α) : Prop := ∃ a, r = .ok a

@[simp] theorem reads_ok (a : α) : Reads (.ok a : Except ε α) := ⟨a, rfl⟩

@[simp] theorem reads_pure (a : α) : Reads (pure a : Except ε α) := ⟨a, rfl⟩

@[simp] theorem not_reads_error (e : ε) : ¬ Reads (.error e : Except ε α) := by
  rintro ⟨a, ha⟩
  cases ha

theorem reads_bind_iff {r : Except ε α} {f : α → Except ε β} :
    Reads (r >>= f) ↔ ∃ a, r = .ok a ∧ Reads (f a) := by
  cases r with
  | error e =>
    constructor
    · rintro ⟨b, hb⟩
      cases hb
    · rintro ⟨a, ha, -⟩
      cases ha
  | ok a =>
    constructor
    · intro h
      exact ⟨a, rfl, h⟩
    · rintro ⟨a', ha, h⟩
      cases ha
      exact h

/-- The rest does not depend on what was read. -/
theorem reads_bind_of_forall {r : Except ε α} {f : α → Except ε β} (h : ∀ a, Reads (f a)) :
    Reads (r >>= f) ↔ Reads r := by
  rw [reads_bind_iff]
  exact ⟨fun ⟨a, ha, _⟩ => ⟨a, ha⟩, fun ⟨a, ha⟩ => ⟨a, ha, h a⟩⟩

@[simp] theorem reads_map_iff {r : Except ε α} {f : α → β} : Reads (r.map f) ↔ Reads r := by
  cases r with
  | error e => simp [Except.map]
  | ok a => simp [Except.map]

theorem reads_mapM_iff {f : α → Except ε β} {l : List α} :
    Reads (l.mapM f) ↔ ∀ x ∈ l, Reads (f x) := by
  induction l with
  | nil => simp
  | cons x l ih =>
    rw [List.mapM_cons, reads_bind_iff, List.forall_mem_cons, ← ih]
    constructor
    · rintro ⟨y, hy, hrest⟩
      rw [reads_bind_of_forall fun ys => reads_pure _] at hrest
      exact ⟨⟨y, hy⟩, hrest⟩
    · rintro ⟨⟨y, hy⟩, hrest⟩
      refine ⟨y, hy, ?_⟩
      rwa [reads_bind_of_forall fun ys => reads_pure _]

theorem PgArray.reads_read_iff {decode : Option α → Except String β} {a : PgArray α} :
    Reads (a.read decode) ↔ a.dimensions.length ≤ 1 ∧ ∀ e ∈ a.elements, Reads (decode e) := by
  have hsize := a.size
  rw [PgArray.read]
  split_ifs with hnil hone
  · rw [if_pos hnil, List.length_eq_zero_iff] at hsize
    simp [hnil, hsize]
  · simp [reads_mapM_iff, hone]
  · have hlength : a.dimensions.length ≠ 0 := by simpa using hnil
    constructor
    · intro h
      exact absurd h (not_reads_error _)
    · rintro ⟨hle, -⟩
      omega

end Sql
