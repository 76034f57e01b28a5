import Mathlib.Order.Monotone.Basic
import Mathlib.Order.Defs.LinearOrder

/-!
# Years and ISO weeks

The days of the proleptic Gregorian calendar, numbered from 1970-01-01 (a Thursday). `yearOf` is the
calendar year of a day, and the ISO year of a day is the calendar year of the Thursday of its week
(Monday to Sunday); the ISO week numbers the Thursdays of a year. Two days have the same ISO year
and the same ISO week if and only if they lie in one week (`isoWeek_eq_iff`).
-/

set_option autoImplicit false

namespace Mapache.Lib

/-! ## Years -/

/-- The day number of 1 January. -/
def yearStart (year : Int) : Int :=
  365 * (year - 1970) + ((year - 1) / 4 - (year - 1) / 100 + (year - 1) / 400 - 477)

/-- The year of a day. 400 years have 146097 days, which gives the year up to one. -/
def yearOf (day : Int) : Int :=
  let year := 1970 + 400 * day / 146097
  if yearStart (year + 1) ≤ day then year + 1 else if day < yearStart year then year - 1 else year

theorem yearStart_mono {y y' : Int} (h : y ≤ y') : yearStart y ≤ yearStart y' := by
  unfold yearStart
  omega

/-- A day lies in its year. -/
theorem yearOf_spec (day : Int) :
    yearStart (yearOf day) ≤ day ∧ day < yearStart (yearOf day + 1) := by
  unfold yearOf
  dsimp only
  generalize hyear : 1970 + 400 * day / 146097 = year
  -- the estimate is off by one year at most
  have hlow : yearStart (year - 1) ≤ day := by
    unfold yearStart
    omega
  have hhigh : day < yearStart (year + 2) := by
    unfold yearStart
    omega
  split
  · rename_i hnext
    rw [show year + 1 + 1 = year + 2 by omega]
    exact ⟨hnext, hhigh⟩
  · rename_i hnext
    split
    · rename_i hprev
      rw [show year - 1 + 1 = year by omega]
      exact ⟨hlow, hprev⟩
    · rename_i hprev
      exact ⟨by omega, by omega⟩

theorem yearOf_mono {d d' : Int} (h : d ≤ d') : yearOf d ≤ yearOf d' := by
  by_contra hlt
  have hle := yearStart_mono (show yearOf d' + 1 ≤ yearOf d by omega)
  have hlow := (yearOf_spec d).1
  have hhigh := (yearOf_spec d').2
  omega

/-! ## Weeks -/

/-- The days since Monday. -/
def daysFromMonday (day : Int) : Int := (day + 3) % 7

/-- The Monday of the week of a day. -/
def mondayOf (day : Int) : Int := day - daysFromMonday day

/-- The year of the ISO week of a day: that of its Thursday. -/
def isoYear (day : Int) : Int := yearOf (mondayOf day + 3)

/-- The number of the ISO week of a day, counted by the Thursdays of its year. -/
def isoWeek (day : Int) : Int := (mondayOf day + 3 - yearStart (isoYear day)) / 7 + 1

theorem mondayOf_le (day : Int) : mondayOf day ≤ day ∧ day < mondayOf day + 7 := by
  unfold mondayOf daysFromMonday
  omega

theorem mondayOf_mono {d d' : Int} (h : d ≤ d') : mondayOf d ≤ mondayOf d' := by
  unfold mondayOf daysFromMonday
  omega

theorem mondayOf_mod (day : Int) : (mondayOf day + 3) % 7 = 0 := by
  unfold mondayOf daysFromMonday
  omega

/-- What a day number means for a week depends on its Monday only. -/
theorem isoWeek_of_mondayOf {d d' : Int} (h : mondayOf d = mondayOf d') :
    isoYear d = isoYear d' ∧ isoWeek d = isoWeek d' := by
  have hyear : isoYear d = isoYear d' := by rw [isoYear, h, ← isoYear]
  exact ⟨hyear, by rw [isoWeek, isoWeek, h, hyear]⟩

/-- **The ISO year and the ISO week determine the week.** -/
theorem isoWeek_eq_iff {d d' : Int} :
    isoYear d = isoYear d' ∧ isoWeek d = isoWeek d' ↔ mondayOf d = mondayOf d' := by
  refine ⟨?_, isoWeek_of_mondayOf⟩
  rintro ⟨hyear, hweek⟩
  have hmod := mondayOf_mod d
  have hmod' := mondayOf_mod d'
  rw [isoWeek, isoWeek, hyear] at hweek
  omega

/-- The days between two days of one week lie in it. -/
theorem mondayOf_between {d e d' : Int} (h : mondayOf d = mondayOf d') (hle : d ≤ e) (hle' : e ≤ d') :
    mondayOf e = mondayOf d := by
  have hlow := mondayOf_mono hle
  have hhigh := mondayOf_mono hle'
  omega

example : yearOf 20087 = 2024 ∧ isoYear 20087 = 2025 ∧ isoWeek 20087 = 1 := by decide

end Mapache.Lib
