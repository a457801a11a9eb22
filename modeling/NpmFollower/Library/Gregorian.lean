import Mathlib

/-! # Years of the Gregorian calendar

A date is the number of days since the first day of the year 0. Adding years
keeps the month and the day, except that the 29th of February becomes the 28th
in a year without it.
-/

namespace Gregorian

def IsLeap (y : ℕ) : Prop := y % 4 = 0 ∧ (y % 100 ≠ 0 ∨ y % 400 = 0)

instance (y : ℕ) : Decidable (IsLeap y) := inferInstanceAs (Decidable (_ ∧ _))

/-- The first day of a year. -/
def firstDay (y : ℕ) : ℕ := 365 * y + (y + 3) / 4 - (y + 99) / 100 + (y + 399) / 400

theorem firstDay_succ (y : ℕ) :
    firstDay (y + 1) = firstDay y + 365 + if IsLeap y then 1 else 0 := by
  have hfour : (y + 1 + 3) / 4 = (y + 3) / 4 + if y % 4 = 0 then 1 else 0 := by
    split_ifs <;> omega
  have hcentury : (y + 1 + 99) / 100 = (y + 99) / 100 + if y % 100 = 0 then 1 else 0 := by
    split_ifs <;> omega
  have hcycle : (y + 1 + 399) / 400 = (y + 399) / 400 + if y % 400 = 0 then 1 else 0 := by
    split_ifs <;> omega
  have hle : (y + 99) / 100 ≤ (y + 3) / 4 := by omega
  have hhundred : y % 400 = 0 → y % 100 = 0 := by omega
  have hquarter : y % 100 = 0 → y % 4 = 0 := by omega
  rw [firstDay, firstDay, hfour, hcentury, hcycle]
  generalize (y + 99) / 100 = centuries at hle ⊢
  generalize (y + 3) / 4 = fours at hle ⊢
  by_cases h4 : y % 4 = 0
  · by_cases h100 : y % 100 = 0
    · by_cases h400 : y % 400 = 0
      · have hleap : IsLeap y := ⟨h4, Or.inr h400⟩
        rw [if_pos h4, if_pos h100, if_pos h400, if_pos hleap]
        omega
      · have hcommon : ¬ IsLeap y := fun h => h.2.elim (fun hne => hne h100) h400
        rw [if_pos h4, if_pos h100, if_neg h400, if_neg hcommon]
        omega
    · have hleap : IsLeap y := ⟨h4, Or.inl h100⟩
      have h400 : ¬ y % 400 = 0 := fun h => h100 (hhundred h)
      rw [if_pos h4, if_neg h100, if_neg h400, if_pos hleap]
      omega
  · have hcommon : ¬ IsLeap y := fun h => h4 h.1
    have h100 : ¬ y % 100 = 0 := fun h => h4 (hquarter h)
    have h400 : ¬ y % 400 = 0 := fun h => h100 (hhundred h)
    rw [if_neg h4, if_neg h100, if_neg h400, if_neg hcommon]
    omega

/-- The mean year has 146097 days in 400 years. -/
theorem firstDay_bounds (y : ℕ) :
    146097 * y ≤ 400 * firstDay y + 396 ∧ 400 * firstDay y ≤ 146097 * y + 699 := by
  rw [firstDay]
  omega

/-- The year is the quotient by its mean length, or a year beside it. -/
def yearOf (d : ℕ) : ℕ :=
  let y := 400 * d / 146097
  if firstDay (y + 1) ≤ d then y + 1 else if d < firstDay y then y - 1 else y

theorem yearOf_spec (d : ℕ) : firstDay (yearOf d) ≤ d ∧ d < firstDay (yearOf d + 1) := by
  have hmean := Nat.div_add_mod (400 * d) 146097
  have hrest := Nat.mod_lt (400 * d) (show 0 < 146097 by omega)
  rw [yearOf]
  generalize 400 * d / 146097 = y at hmean ⊢
  split_ifs with hnext hbefore
  · have hlater := (firstDay_bounds (y + 1 + 1)).1
    omega
  · have hpos : y ≠ 0 := by
      rintro rfl
      exact absurd hbefore (Nat.not_lt_zero d)
    have hearlier := (firstDay_bounds (y - 1)).2
    rw [Nat.sub_add_cancel (by omega)]
    omega
  · omega

/-- The place in the year of the same month and day: 59 days come before the 29th of February
of a leap year and before the 1st of March of another. -/
def moveDay (leap leap' : Prop) [Decidable leap] [Decidable leap'] (day : ℕ) : ℕ :=
  if leap then if leap' then day else if 59 ≤ day then day - 1 else day
  else if leap' then if 59 ≤ day then day + 1 else day else day

def addYears (d n : ℕ) : ℕ :=
  firstDay (yearOf d + n) +
    moveDay (IsLeap (yearOf d)) (IsLeap (yearOf d + n)) (d - firstDay (yearOf d))

/-- A year after the 29th of February 2016 it is the 28th. -/
example : addYears (firstDay 2016 + 59) 1 = firstDay 2017 + 58 := by decide

theorem addYears_zero (d : ℕ) : addYears d 0 = d := by
  have hspec := yearOf_spec d
  rw [addYears, Nat.add_zero, moveDay]
  split_ifs <;> omega

/-- A year later is 365 or 366 days later. -/
theorem addYears_succ (d n : ℕ) :
    addYears d n + 365 ≤ addYears d (n + 1) ∧ addYears d (n + 1) ≤ addYears d n + 366 := by
  have hnext := firstDay_succ (yearOf d + n)
  rw [addYears, addYears, ← Nat.add_assoc, hnext, moveDay, moveDay]
  split_ifs <;> omega

theorem addYears_strictMono (d : ℕ) : StrictMono (addYears d) := by
  apply strictMono_nat_of_lt_succ
  intro n
  have hyear := (addYears_succ d n).1
  omega

end Gregorian
