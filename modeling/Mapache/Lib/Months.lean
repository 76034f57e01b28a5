import Mathlib.Tactic.NormNum
import Mapache.Lib.Calendar

/-!
# Months

The months of the days of the calendar. `firstOfMonth` is the first day of a month, where the months
are numbered through all years, and `monthIndex` is the number of the month of a day: a month starts
on or before a day if and only if its number is not larger than that of the day
(`firstOfMonth_le_iff`).
-/

set_option autoImplicit false

namespace Mapache.Lib

def isLeapYear (year : Int) : Bool := year % 4 = 0 ∧ (year % 100 ≠ 0 ∨ year % 400 = 0)

/-- The first day of a month. February is two days short of the even distribution of the days, or
one day in leap years. -/
def monthStart (year month : Int) : Int :=
  yearStart year + (367 * month - 362) / 12 -
    (if month ≤ 2 then 0 else if isLeapYear year then 1 else 2)

/-- The month of a day, from 1 to 12. -/
def monthOf (day : Int) : Int :=
  let short := if day < monthStart (yearOf day) 3 then 0 else if isLeapYear (yearOf day) then 1 else 2
  (12 * (day - yearStart (yearOf day) + short) + 373) / 367

/-- The day of the month, from 1. -/
def dayOfMonth (day : Int) : Int := day - monthStart (yearOf day) (monthOf day) + 1

def daysInMonth (year month : Int) : Int := monthStart year (month + 1) - monthStart year month

theorem isLeapYear_iff {year : Int} :
    isLeapYear year = true ↔ year % 4 = 0 ∧ (year % 100 ≠ 0 ∨ year % 400 = 0) :=
  decide_eq_true_iff

theorem yearStart_succ (year : Int) :
    yearStart (year + 1) = yearStart year + if isLeapYear year then 366 else 365 := by
  split
  · rename_i hleap
    rw [isLeapYear_iff] at hleap
    unfold yearStart
    omega
  · rename_i hleap
    rw [isLeapYear_iff] at hleap
    unfold yearStart
    omega

theorem yearStart_le_iff {year day : Int} : yearStart year ≤ day ↔ year ≤ yearOf day := by
  constructor
  · intro h
    by_contra hlt
    have hmono := yearStart_mono (show yearOf day + 1 ≤ year by omega)
    have hhigh := (yearOf_spec day).2
    omega
  · intro h
    exact (yearStart_mono h).trans (yearOf_spec day).1

@[simp] theorem monthStart_one (year : Int) : monthStart year 1 = yearStart year := by
  simp [monthStart]

/-- A day lies in its month. -/
theorem monthOf_spec (day : Int) : 1 ≤ monthOf day ∧ monthOf day ≤ 12 ∧
    monthStart (yearOf day) (monthOf day) ≤ day ∧ day < monthStart (yearOf day) (monthOf day + 1) := by
  obtain ⟨hlow, hhigh⟩ := yearOf_spec day
  rw [yearStart_succ] at hhigh
  unfold monthOf monthStart
  dsimp only
  generalize yearOf day = year at hlow hhigh ⊢
  generalize yearStart year = start at hlow hhigh ⊢
  generalize isLeapYear year = leap at hhigh ⊢
  cases leap <;> simp only [reduceIte, Bool.false_eq_true] at hhigh ⊢ <;> split_ifs <;> omega

/-- The number of the month of a day. -/
def monthIndex (day : Int) : Int := 12 * yearOf day + (monthOf day - 1)

/-- The first day of the month with the number. -/
def firstOfMonth (index : Int) : Int := monthStart (index / 12) (index % 12 + 1)

/-- A month has 28 days at least. -/
theorem firstOfMonth_succ (index : Int) : firstOfMonth index + 28 ≤ firstOfMonth (index + 1) := by
  have hsucc := yearStart_succ (index / 12)
  unfold firstOfMonth monthStart
  by_cases hmonth : index % 12 = 11
  · have hdiv : (index + 1) / 12 = index / 12 + 1 := by omega
    have hmod : (index + 1) % 12 = 0 := by omega
    rw [hdiv, hmod, hmonth, hsucc]
    cases isLeapYear (index / 12) <;> norm_num <;> omega
  · have hdiv : (index + 1) / 12 = index / 12 := by omega
    have hmod : (index + 1) % 12 = index % 12 + 1 := by omega
    rw [hdiv, hmod]
    cases isLeapYear (index / 12) <;> simp only [reduceIte, Bool.false_eq_true] <;>
      split_ifs <;> omega

theorem firstOfMonth_mono {index index' : Int} (h : index ≤ index') :
    firstOfMonth index ≤ firstOfMonth index' := by
  obtain ⟨n, rfl⟩ := Int.le.dest h
  induction n with
  | zero => exact le_of_eq (congrArg _ (add_zero index).symm)
  | succ n ih =>
    have hsucc := firstOfMonth_succ (index + n)
    have hle := ih (by omega)
    rw [show index + ((n + 1 : Nat) : Int) = index + n + 1 by omega]
    omega

/-- Months start at least 28 days apart. -/
theorem firstOfMonth_add_le {index index' : Int} (h : index < index') :
    firstOfMonth index + 28 ≤ firstOfMonth index' :=
  (firstOfMonth_succ index).trans (firstOfMonth_mono h)

theorem firstOfMonth_twelve_mul (year month : Int) (hlow : 1 ≤ month) (hhigh : month ≤ 12) :
    firstOfMonth (12 * year + (month - 1)) = monthStart year month := by
  have hdiv : (12 * year + (month - 1)) / 12 = year := by omega
  have hmod : (12 * year + (month - 1)) % 12 + 1 = month := by omega
  rw [firstOfMonth, hdiv, hmod]

theorem firstOfMonth_monthIndex (day : Int) :
    firstOfMonth (monthIndex day) = monthStart (yearOf day) (monthOf day) := by
  obtain ⟨hlow, hhigh, -⟩ := monthOf_spec day
  exact firstOfMonth_twelve_mul _ _ hlow hhigh

/-- **A month starts on or before a day** if and only if it is the month of the day or an earlier
one.
-/
theorem firstOfMonth_le_iff {index day : Int} : firstOfMonth index ≤ day ↔ index ≤ monthIndex day := by
  obtain ⟨hlow, hhigh, hstart, hend⟩ := monthOf_spec day
  rw [← firstOfMonth_monthIndex] at hstart
  have hnext : day < firstOfMonth (monthIndex day + 1) := by
    refine hend.trans_le (le_of_eq ?_)
    by_cases hmonth : monthOf day = 12
    · have hindex : monthIndex day + 1 = 12 * (yearOf day + 1) + (1 - 1) := by
        unfold monthIndex
        omega
      have hsucc := yearStart_succ (yearOf day)
      rw [hindex, firstOfMonth_twelve_mul _ _ (le_refl _) (by omega), monthStart_one, hmonth,
        monthStart,
        hsucc]
      cases isLeapYear (yearOf day) <;> norm_num <;> omega
    · have hindex : monthIndex day + 1 = 12 * yearOf day + (monthOf day + 1 - 1) := by
        unfold monthIndex
        omega
      rw [hindex, firstOfMonth_twelve_mul _ _ (by omega) (by omega)]
  constructor
  · intro h
    by_contra hlt
    have hmono := firstOfMonth_mono (show monthIndex day + 1 ≤ index by omega)
    omega
  · exact fun h => (firstOfMonth_mono h).trans hstart

theorem monthIndex_firstOfMonth (index : Int) : monthIndex (firstOfMonth index) = index := by
  have hle := firstOfMonth_le_iff.mp (le_refl (firstOfMonth index))
  have hgt : ¬ index + 1 ≤ monthIndex (firstOfMonth index) := by
    rw [← firstOfMonth_le_iff]
    have hsucc := firstOfMonth_succ index
    omega
  omega

/-- The year and the month are those of the number. -/
theorem monthIndex_eq_iff {d d' : Int} :
    monthIndex d = monthIndex d' ↔ yearOf d = yearOf d' ∧ monthOf d = monthOf d' := by
  obtain ⟨hlow, hhigh, -⟩ := monthOf_spec d
  obtain ⟨hlow', hhigh', -⟩ := monthOf_spec d'
  unfold monthIndex
  omega

section MonthStart

variable {year month : Int}

/-- The parts of the first day of a month. -/
theorem monthStart_parts (hlow : 1 ≤ month) (hhigh : month ≤ 12) :
    yearOf (monthStart year month) = year ∧ monthOf (monthStart year month) = month ∧
      dayOfMonth (monthStart year month) = 1 := by
  have hindex := monthIndex_firstOfMonth (12 * year + (month - 1))
  rw [firstOfMonth_twelve_mul _ _ hlow hhigh] at hindex
  obtain ⟨hlow', hhigh', -⟩ := monthOf_spec (monthStart year month)
  unfold monthIndex at hindex
  have hyear : yearOf (monthStart year month) = year := by omega
  have hmonth : monthOf (monthStart year month) = month := by omega
  refine ⟨hyear, hmonth, ?_⟩
  rw [dayOfMonth, hyear, hmonth]
  omega

theorem daysInMonth_pos (hlow : 1 ≤ month) (hhigh : month ≤ 12) : 28 ≤ daysInMonth year month := by
  have hsucc := firstOfMonth_succ (12 * year + (month - 1))
  rw [firstOfMonth_twelve_mul _ _ hlow hhigh] at hsucc
  unfold daysInMonth
  unfold monthStart
  cases isLeapYear year <;> simp only [reduceIte, Bool.false_eq_true] <;> split_ifs <;> omega

end MonthStart

example : monthOf 20233 = 5 ∧ dayOfMonth 20233 = 25 ∧ daysInMonth 2024 2 = 29 := by decide

end Mapache.Lib
