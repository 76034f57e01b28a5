import Mapache.Repository.RetentionPeriods

/-!
# Larger retention counts

A larger count of a period rule is to keep no less. Up to a certain count the cutoff of every rule
goes back with the count (`PeriodRule.cutoff_anti`). This count is the number of periods from the
first date of the calendar on: with the next one `KeepYearly` and `KeepMonthly` take the current
time for the cutoff, and the other rules panic (`PeriodRule.cutoff_succ`). So the accepted counts
are safe up to there and no further (`countsGrow_iff`), and with `all`, the largest count, no rule
does what it is for.
-/

set_option autoImplicit false

namespace Mapache

open Lib

/-! ## Accepted counts -/

/-- `isize::MAX`. -/
def isizeMax : Nat := 2 ^ 63 - 1

/-- `usize::MAX`. -/
def usizeMax : Nat := 2 ^ 64 - 1

/-- The value of decimal digits. -/
def digitsValue (s : List Char) : Option Nat :=
  if !s.isEmpty && s.all Char.isDigit then some (Nat.ofDigitChars 10 s 0) else none

/-- `parse::<isize>`, on the characters. -/
def parseIsize (s : List Char) : Option Int :=
  let number := match s with
    | '-' :: digits => (digitsValue digits).map fun n => -Int.ofNat n
    | '+' :: digits => (digitsValue digits).map Int.ofNat
    | digits => (digitsValue digits).map Int.ofNat
  number.filter fun n => -(2 ^ 63) ≤ n ∧ n < 2 ^ 63

/-- `parse_retention_number`. -/
def parseRetentionNumber (s : String) : Except String Nat :=
  if s = "all" then .ok usizeMax
  else
    match parseIsize s.toList with
    | none => .error (s ++ " is not a number")
    | some n => if 0 < n then .ok n.toNat else .error "n must be greater than 0"

/-- The counts that `parse_retention_number` accepts. -/
def AcceptedCount (n : Nat) : Prop := ∃ s, parseRetentionNumber s = .ok n

section Accepted

variable {n : Nat}

theorem digitsValue_toDigits (n : Nat) : digitsValue (Nat.toDigits 10 n) = some n := by
  rw [digitsValue, if_pos, Nat.ofDigitChars_ten_toDigits]
  rw [Bool.and_eq_true, Bool.not_eq_true', List.isEmpty_eq_false_iff, List.all_eq_true]
  exact ⟨Nat.toDigits_ne_nil, fun c hc => Nat.isDigit_of_mem_toDigits (by decide) (le_refl _) hc⟩

/-- A number in decimal is read back. -/
theorem parseIsize_toDigits (hle : n ≤ isizeMax) :
    parseIsize (Nat.toDigits 10 n) = some (n : Int) := by
  have hdigits : ∀ c ∈ Nat.toDigits 10 n, c.isDigit = true := fun c hc =>
    Nat.isDigit_of_mem_toDigits (by decide) (le_refl _) hc
  have hvalue := digitsValue_toDigits n
  unfold isizeMax at hle
  generalize Nat.toDigits 10 n = s at hdigits hvalue ⊢
  unfold parseIsize
  split
  · exact absurd (hdigits '-' List.mem_cons_self) (by decide)
  · exact absurd (hdigits '+' List.mem_cons_self) (by decide)
  · rw [hvalue, Option.map_some, Int.ofNat_eq_natCast]
    exact Option.filter_some_pos (decide_eq_true ⟨by omega, by omega⟩)

theorem acceptedCount_iff : AcceptedCount n ↔ (1 ≤ n ∧ n ≤ isizeMax) ∨ n = usizeMax := by
  constructor
  · rintro ⟨s, hs⟩
    unfold parseRetentionNumber at hs
    split at hs
    · cases hs
      exact Or.inr rfl
    · split at hs
      · cases hs
      · rename_i z hz
        split at hs
        · cases hs
          obtain ⟨-, hrange⟩ := Option.filter_eq_some_iff.mp hz
          have hrange := of_decide_eq_true hrange
          unfold isizeMax
          exact Or.inl ⟨by omega, by omega⟩
        · cases hs
  · rintro (⟨hpos, hle⟩ | rfl)
    · refine ⟨String.ofList (Nat.toDigits 10 n), ?_⟩
      have hne : String.ofList (Nat.toDigits 10 n) ≠ "all" := by
        intro heq
        have hlist := congrArg String.toList heq
        rw [String.toList_ofList] at hlist
        have hdigit := Nat.isDigit_of_mem_toDigits (c := 'a') (n := n) (b := 10) (by decide)
          (le_refl _)
          (by rw [hlist]; decide)
        revert hdigit
        decide
      rw [parseRetentionNumber, if_neg hne, String.toList_ofList, parseIsize_toDigits hle]
      exact (if_pos (by omega)).trans (congrArg _ (Int.toNat_natCast n))
    · exact ⟨"all", rfl⟩

end Accepted

/-! ## Zones with bounded offsets -/

/-- The offsets of a `FixedOffset` are less than 24 hours. -/
def Zone.Bounded (zone : Zone) : Prop := ∀ t, -86400 < zone.offset t ∧ zone.offset t < 86400

section Bounded

variable {zone : Zone} {naive date date' t : Int}

/-- A point in time that has the local time is less than a day away from it. -/
theorem fromLocal_bounds (hzone : zone.Bounded) (h : t ∈ zone.fromLocal naive) :
    naive - nanosPerDay < t ∧ t < naive + nanosPerDay := by
  unfold Zone.fromLocal at h
  dsimp only at h
  split at h
  · obtain ⟨offset, hmem, rfl⟩ := List.mem_map.mp h
    have heq := of_decide_eq_true (List.mem_filter.mp hmem).2
    have hbound := hzone (naive - offset * nanosPerSecond)
    rw [heq] at hbound
    unfold nanosPerDay nanosPerSecond
    omega
  · cases h

theorem startOfDate_bounds (hzone : zone.Bounded) (date : Int) :
    date * nanosPerDay - nanosPerDay < zone.startOfDate date ∧
      zone.startOfDate date < date * nanosPerDay + 2 * nanosPerDay := by
  unfold Zone.startOfDate
  dsimp only
  cases hfirst : (zone.fromLocal (date * nanosPerDay)).head? with
  | some t =>
    have hbound := fromLocal_bounds hzone (List.mem_of_mem_head? hfirst)
    rw [Option.getD_some]
    unfold nanosPerDay nanosPerSecond at *
    omega
  | none =>
    rw [Option.getD_none]
    cases hnext : (zone.fromLocal (date * nanosPerDay + nanosPerHour)).head? with
    | some t =>
      have hbound := fromLocal_bounds hzone (List.mem_of_mem_head? hnext)
      rw [Option.getD_some]
      unfold nanosPerHour nanosPerDay nanosPerSecond at *
      omega
    | none =>
      rw [Option.getD_none]
      unfold nanosPerDay nanosPerSecond
      omega

/-- Dates some days apart start in their order. -/
theorem startOfDate_le (hzone : zone.Bounded) (h : date + 3 ≤ date') :
    zone.startOfDate date ≤ zone.startOfDate date' := by
  have hlow := (startOfDate_bounds hzone date).2
  have hhigh := (startOfDate_bounds hzone date').1
  unfold nanosPerDay nanosPerSecond at *
  omega

theorem single_inRange (h : zone.single naive = some t) : InRange t := by
  unfold Zone.single at h
  split at h
  · rename_i u hu
    cases h
    exact mem_fromLocal (hu ▸ List.mem_singleton_self _)
  · cases h

theorem truncatedNow_inRange {now : Int} (hnow : InRange now) : InRange (truncatedNow zone now) := by
  rw [truncatedNow]
  cases hminute : zone.zeroMinute now with
  | none => exact hnow
  | some t =>
    rw [Option.bind_some]
    cases hsecond : zone.zeroSecond t with
    | none => exact hnow
    | some t' => exact single_inRange hsecond

end Bounded

/-! ## The period rules -/

inductive PeriodRule where
  | yearly
  | monthly
  | weekly
  | daily
  | hourly

namespace PeriodRule

/-- The rule with a count. -/
def rule : PeriodRule → Nat → RetentionRule
  | yearly => .keepYearly
  | monthly => .keepMonthly
  | weekly => .keepWeekly
  | daily => .keepDaily
  | hourly => .keepHourly

def cutoff (zone : Zone) (now : Int) : PeriodRule → Nat → Option Int
  | yearly, n => some (yearlyCutoff zone now n)
  | monthly, n => some (monthlyCutoff zone now n)
  | weekly, n => weeklyCutoff zone now n
  | daily, n => dailyCutoff zone now n
  | hourly, n => hourlyCutoff zone now n

/-- The period of a snapshot. -/
def period (zone : Zone) : PeriodRule → SnapshotEntry → Int
  | yearly => yearPeriod zone
  | monthly => monthPeriod zone
  | weekly => weekOf zone
  | daily => dayKey zone
  | hourly => hourPeriod zone

/-- The number of periods from the first date of the calendar to the current one. -/
def maxCount (zone : Zone) (now : Int) : PeriodRule → Int
  | yearly => yearOf (zone.dateNaive now) - minYear + 1
  | monthly => monthIndex (zone.dateNaive now) - 12 * minYear + 1
  | weekly => (mondayOf (zone.dateNaive now) - minDate) / 7 + 1
  | daily => (zone.startOfDate (zone.dateNaive now) - minDate * nanosPerDay) / nanosPerDay + 1
  | hourly => (truncatedNow zone now - minDate * nanosPerDay) / nanosPerHour + 1

/-- A rule keeps the latest snapshot of every key after its cutoff. -/
theorem exists_key (r : PeriodRule) (zone : Zone) (now : Int) :
    ∃ (κ : Type) (_ : DecidableEq κ) (key : SnapshotEntry → κ), ∀ n l,
      (r.rule n).idsToKeep zone l now =
        (r.cutoff zone now n).map fun c => keepLatestPerPeriod (snapshotEntries l) key c := by
  cases r with
  | yearly => exact ⟨_, inferInstance, yearKey zone, fun n l => rfl⟩
  | monthly => exact ⟨_, inferInstance, monthKey zone, fun n l => rfl⟩
  | weekly => exact ⟨_, inferInstance, weekKey zone, fun n l => rfl⟩
  | daily => exact ⟨_, inferInstance, dayKey zone, fun n l => rfl⟩
  | hourly => exact ⟨_, inferInstance, hourKey zone, fun n l => rfl⟩

section Cutoffs

variable {zone : Zone} {now t unit : Int} {n : Nat}

/-- A count that is far from the limits of the integers is not cut off. -/
theorem duration_of_le (hn : 1 ≤ n) (hle : n ≤ 10 ^ 10) (hunit : 0 ≤ unit)
    (hmax : unit ≤ 7 * nanosPerDay) : duration unit (signed 64 (n - 1)) = some ((n - 1) * unit) := by
  have hcount : (0 : Int) ≤ (n : Int) - 1 := by omega
  have hnonneg : (0 : Int) ≤ (n - 1) * unit := mul_nonneg hcount hunit
  have hmul : ((n : Int) - 1) * unit ≤ 10 ^ 10 * (7 * nanosPerDay) :=
    mul_le_mul (by omega) hmax hunit (by decide)
  rw [signed_of_lt (by norm_num; omega) (by norm_num; omega), duration, mul_comm unit, if_pos]
  rw [abs_of_nonneg hnonneg]
  exact hmul.trans (by decide)

/-- Going back from a point in time by a number of units. -/
theorem subTime_eq (hn : 1 ≤ n) (hle : n ≤ 10 ^ 10) (hunit : 0 < unit) (hmax : unit ≤ 7 * nanosPerDay)
    (ht : InRange t) : ((duration unit (signed 64 (n - 1))).bind fun delta => subTime t delta) =
      if (n : Int) ≤ (t - minDate * nanosPerDay) / unit + 1 then some (t - (n - 1) * unit) else
        none := by
  have hcount : (0 : Int) ≤ (n : Int) - 1 := by omega
  have hnonneg : (0 : Int) ≤ (n - 1) * unit := mul_nonneg hcount hunit.le
  have hiff : InRange (t - (n - 1) * unit) ↔ (n : Int) ≤ (t - minDate * nanosPerDay) / unit + 1 := by
    have hdiv := Int.le_ediv_iff_mul_le (a := (n : Int) - 1) (b := t - minDate * nanosPerDay) hunit
    have hhigh := ht.2
    unfold InRange
    omega
  rw [duration_of_le hn hle hunit.le hmax, Option.bind_some, subTime]
  exact if_congr hiff rfl rfl

theorem weeklyCutoff_eq (hn : 1 ≤ n) (hle : n ≤ 10 ^ 10) (hnow : DateInRange (zone.dateNaive now)) :
    weeklyCutoff zone now n =
      if (n : Int) ≤ (mondayOf (zone.dateNaive now) - minDate) / 7 + 1 then
        some (zone.startOfDate (mondayOf (zone.dateNaive now) - 7 * (n - 1)))
      else none := by
  obtain ⟨hmonday, -⟩ := mondayOf_le (zone.dateNaive now)
  have hmod : zone.dateNaive now - daysFromMonday (zone.dateNaive now) =
      mondayOf (zone.dateNaive now) := rfl
  have hday : nanosPerDay ≠ 0 := by decide
  have hweek : ((n : Int) - 1) * (7 * nanosPerDay) = nanosPerDay * (7 * (n - 1)) := by ring
  unfold weeklyCutoff
  rw [duration_daysFromMonday, duration_of_le hn hle (by decide) (le_refl _), hweek]
  simp only [Option.bind_eq_bind, Option.bind_some, subDate, Int.mul_tdiv_cancel_left _ hday, hmod]
  have hhigh := hnow.2
  -- the Monday of the current week may lie before the first date of the calendar
  by_cases hfirst : minDate ≤ mondayOf (zone.dateNaive now)
  · have hmon : DateInRange (mondayOf (zone.dateNaive now)) := ⟨hfirst, by omega⟩
    rw [if_pos hmon, Option.bind_some]
    by_cases hcount : (n : Int) ≤ (mondayOf (zone.dateNaive now) - minDate) / 7 + 1
    · rw [if_pos hcount, if_pos ⟨by omega, by omega⟩]
      rfl
    · rw [if_neg hcount, if_neg fun h : DateInRange _ => hcount (by have hlow := h.1; omega)]
      rfl
  · rw [if_neg fun h : DateInRange _ => hfirst h.1, Option.bind_none, if_neg (by omega)]

theorem dailyCutoff_eq (hn : 1 ≤ n) (hle : n ≤ 10 ^ 10) (hnow : DateInRange (zone.dateNaive now)) :
    dailyCutoff zone now n =
      if (n : Int) ≤ daily.maxCount zone now then
        some (zone.startOfDate (zone.dateNaive now) - (n - 1) * nanosPerDay)
      else none :=
  subTime_eq hn hle (by decide) (by decide) (startOfDate_inRange hnow)

theorem hourlyCutoff_eq (hn : 1 ≤ n) (hle : n ≤ 10 ^ 10) (hnow : InRange now) :
    hourlyCutoff zone now n =
      if (n : Int) ≤ hourly.maxCount zone now then
        some (truncatedNow zone now - (n - 1) * nanosPerHour)
      else none :=
  subTime_eq hn hle (by decide) (by decide) (truncatedNow_inRange hnow)

end Cutoffs

section MaxCount

variable {zone : Zone} {now : Int} {n n₁ n₂ : Nat} {r : PeriodRule}

/-- There is a current period, and the counts up to the next one are far from the limits of the
integers.
-/
theorem maxCount_bounds (hnow : InRange now) (hdate : DateInRange (zone.dateNaive now)) :
    0 ≤ r.maxCount zone now ∧ r.maxCount zone now < 10 ^ 10 := by
  obtain ⟨hmin, hmax⟩ := dates_eq
  have hyear := dateInRange_iff.mp hdate
  have hlow := hdate.1
  have hhigh := hdate.2
  have hfirst : minYear = -262143 := rfl
  have hlast : maxYear = 262142 := rfl
  cases r with
  | yearly =>
    simp only [maxCount]
    omega
  | monthly =>
    obtain ⟨hone, htwelve, -⟩ := monthOf_spec (zone.dateNaive now)
    simp only [maxCount, monthIndex]
    omega
  | weekly =>
    have hmonday := mondayOf_le (zone.dateNaive now)
    simp only [maxCount]
    omega
  | daily =>
    have hrange : InRange (zone.startOfDate (zone.dateNaive now)) := startOfDate_inRange hdate
    simp only [maxCount]
    unfold InRange at hrange
    rw [hmin, hmax] at hrange
    rw [hmin]
    unfold nanosPerDay nanosPerSecond at *
    omega
  | hourly =>
    have hrange : InRange (truncatedNow zone now) := truncatedNow_inRange hnow
    simp only [maxCount]
    unfold InRange at hrange
    rw [hmin, hmax] at hrange
    rw [hmin]
    unfold nanosPerDay nanosPerHour nanosPerSecond at *
    omega

/-- **Up to the largest safe count the cutoffs go back.** -/
theorem cutoff_anti (hzone : zone.Bounded) (hnow : InRange now)
    (hdate : DateInRange (zone.dateNaive now))
    (hn : 1 ≤ n₁) (hle : n₁ ≤ n₂) (hmax : (n₂ : Int) ≤ r.maxCount zone now) :
    ∃ c₁ c₂, r.cutoff zone now n₁ = some c₁ ∧ r.cutoff zone now n₂ = some c₂ ∧ c₂ ≤ c₁ := by
  have hn₂ : 1 ≤ n₂ := hn.trans hle
  have hbound := (maxCount_bounds hnow hdate (r := r)).2
  rcases Nat.eq_or_lt_of_le hle with rfl | hlt
  · have hsome : ∃ c, r.cutoff zone now n₁ = some c := by
      cases r with
      | yearly => exact ⟨_, rfl⟩
      | monthly => exact ⟨_, rfl⟩
      | weekly => exact ⟨_, (weeklyCutoff_eq hn (by omega) hdate).trans (if_pos hmax)⟩
      | daily => exact ⟨_, (dailyCutoff_eq hn (by omega) hdate).trans (if_pos hmax)⟩
      | hourly => exact ⟨_, (hourlyCutoff_eq hn (by omega) hnow).trans (if_pos hmax)⟩
    obtain ⟨c, hc⟩ := hsome
    exact ⟨c, c, hc, hc, le_refl c⟩
  · cases r with
    | yearly =>
      simp only [maxCount] at hmax
      refine ⟨_, _, congrArg some (yearlyCutoff_of_le hn hdate (by omega)),
        congrArg some (yearlyCutoff_of_le hn₂ hdate (by omega)), startOfDate_le hzone ?_⟩
      have hsucc := yearStart_succ (yearOf (zone.dateNaive now) - (n₂ - 1))
      have hmono := yearStart_mono (show yearOf (zone.dateNaive now) - ((n₂ : Int) - 1) + 1 ≤
        yearOf (zone.dateNaive now) - (n₁ - 1) by omega)
      split at hsucc <;> omega
    | monthly =>
      simp only [maxCount] at hmax
      have hcut : ∀ n : Nat, 1 ≤ n → n ≤ n₂ → monthly.cutoff zone now n =
          some (zone.startOfDate (firstOfMonth (monthIndex (zone.dateNaive now) - (n - 1)))) := by
        intro n hn hle
        exact congrArg some ((monthlyCutoff_eq hn hdate).trans (if_pos (by omega)))
      refine ⟨_, _, hcut n₁ hn hle, hcut n₂ hn₂ (le_refl _), startOfDate_le hzone ?_⟩
      have hgap := firstOfMonth_add_le (show monthIndex (zone.dateNaive now) - ((n₂ : Int) - 1) <
        monthIndex (zone.dateNaive now) - (n₁ - 1) by omega)
      omega
    | weekly =>
      refine ⟨_, _, (weeklyCutoff_eq hn (by omega) hdate).trans (if_pos ?_),
        (weeklyCutoff_eq hn₂ (by omega) hdate).trans (if_pos hmax), startOfDate_le hzone (by omega)⟩
      simp only [maxCount] at hmax
      omega
    | daily =>
      refine ⟨_, _, (dailyCutoff_eq hn (by omega) hdate).trans (if_pos (by omega)),
        (dailyCutoff_eq hn₂ (by omega) hdate).trans (if_pos hmax), ?_⟩
      unfold nanosPerDay nanosPerSecond
      omega
    | hourly =>
      refine ⟨_, _, (hourlyCutoff_eq hn (by omega) hnow).trans (if_pos (by omega)),
        (hourlyCutoff_eq hn₂ (by omega) hnow).trans (if_pos hmax), ?_⟩
      unfold nanosPerHour nanosPerSecond
      omega

/-- **With the next count** a rule panics, or its cutoff is the current time while that of the
largest safe count is the start of the calendar. -/
theorem cutoff_succ (hzone : zone.Bounded) (hnow : InRange now)
    (hdate : DateInRange (zone.dateNaive now))
    (hn : (n : Int) = r.maxCount zone now + 1) : r.cutoff zone now n = none ∨
      r.cutoff zone now n = some now ∧ 1 ≤ n - 1 ∧ ∃ c,
        r.cutoff zone now (n - 1) = some c ∧ c ≤ -1 := by
  obtain ⟨hpos, hbound⟩ := maxCount_bounds hnow hdate (r := r)
  have hn₁ : 1 ≤ n := by omega
  have hyear := dateInRange_iff.mp hdate
  have hearly : zone.startOfDate minDate ≤ -1 := by
    have hstart := (startOfDate_bounds hzone minDate).2
    rw [dates_eq.1] at hstart ⊢
    unfold nanosPerDay nanosPerSecond at hstart
    omega
  cases r with
  | yearly =>
    simp only [maxCount] at hn
    have hmin : minYear = -262143 := rfl
    have hmax : maxYear = 262142 := rfl
    right
    refine ⟨congrArg some ?_, by omega, _, rfl, ?_⟩
    · have htarget : yearOf (zone.dateNaive now) - ((n : Int) - 1) = minYear - 1 := by omega
      have hcast : signed 32 ((n : Int) - 1) = (n : Int) - 1 :=
        signed_of_lt (by norm_num; omega) (by norm_num; omega)
      have hwrap : signed 32 (minYear - 1) = minYear - 1 := by decide
      have hnone : fromYmdOpt (minYear - 1) 1 1 = none := by
        rw [fromYmdOpt_first (by decide), if_neg (by omega)]
      unfold yearlyCutoff
      simp only [hcast, htarget, hwrap, hnone]
    · have hlast : yearOf (zone.dateNaive now) - (((n - 1 : Nat) : Int) - 1) = minYear := by omega
      rw [yearlyCutoff_of_le (by omega) hdate (by omega), hlast]
      exact hearly
  | monthly =>
    obtain ⟨hone, htwelve, -⟩ := monthOf_spec (zone.dateNaive now)
    simp only [maxCount] at hn
    right
    refine ⟨congrArg some ((monthlyCutoff_eq hn₁ hdate).trans (if_neg (by omega))), ?_, _, rfl, ?_⟩
    · unfold monthIndex at hn
      omega
    · have hindex : 12 * minYear ≤ monthIndex (zone.dateNaive now) := by
        unfold monthIndex
        omega
      have hlast : monthIndex (zone.dateNaive now) - (((n - 1 : Nat) : Int) - 1) =
          12 * minYear + (1 - 1) := by omega
      rw [monthlyCutoff_eq (by omega) hdate, if_pos (by omega), hlast,
        firstOfMonth_twelve_mul _ _ (le_refl _) (by omega), monthStart_one]
      exact hearly
  | weekly =>
    have hsmall : n ≤ 10 ^ 10 := by omega
    simp only [maxCount] at hn
    exact Or.inl ((weeklyCutoff_eq hn₁ hsmall hdate).trans (if_neg (by omega)))
  | daily => exact Or.inl ((dailyCutoff_eq hn₁ (by omega) hdate).trans (if_neg (by omega)))
  | hourly => exact Or.inl ((hourlyCutoff_eq hn₁ (by omega) hnow).trans (if_neg (by omega)))

end MaxCount

end PeriodRule

/-! ## Counts that keep no less -/

/-- Snapshots in the order of their times, none of them later than now, with times and local dates
that can be represented. -/
structure TimedSnapshots (zone : Zone) (now : Int) (l : List TaggedEntry) : Prop where
  sorted : l.Pairwise fun a b => a.timestamp ≤ b.timestamp
  past : ∀ e ∈ l, e.timestamp ≤ now
  inRange : ∀ e ∈ l, InRange e.timestamp ∧ DateInRange (zone.dateNaive e.timestamp)

/-- The accepted counts up to `m`: the rule does not panic, a larger count keeps no less, and `all`
keeps the last snapshot of every period. -/
def CountsGrow (r : PeriodRule) (zone : Zone) (now : Int) (m : Nat) : Prop :=
  ∀ n₁ n₂, AcceptedCount n₁ → AcceptedCount n₂ → n₁ ≤ n₂ → n₂ ≤ m → ∀ l, TimedSnapshots zone now l →
    ∃ kept₁ kept₂, applyRetentionRules zone l now [r.rule n₁] none = some kept₁ ∧
      applyRetentionRules zone l now [r.rule n₂] none = some kept₂ ∧ kept₁ ⊆ kept₂ ∧
      (n₂ = usizeMax → ∀ e, LastOf (r.period zone) (snapshotEntries l) e → e.id ∈ kept₂)

section CountsGrow

variable {zone : Zone} {now : Int} {m : Nat} {r : PeriodRule} {κ : Type} [DecidableEq κ]
  {key : SnapshotEntry → κ} {l : List SnapshotEntry} {c c' : Int}

/-- An earlier cutoff keeps no less. -/
theorem keepLatestPerPeriod_mono (hsorted : l.Pairwise fun a b => a.timestamp ≤ b.timestamp)
    (hle : c' ≤ c) : keepLatestPerPeriod l key c ⊆ keepLatestPerPeriod l key c' := by
  intro id hid
  obtain ⟨e, he, hid⟩ := mem_keepLatestPerPeriod.mp hid
  obtain ⟨hlast, hcut⟩ := (latestOf_cutoff_iff hsorted).mp he
  exact mem_keepLatestPerPeriod.mpr ⟨e, (latestOf_cutoff_iff hsorted).mpr ⟨hlast, hle.trans hcut⟩, hid⟩

theorem acceptedCount_pos {n : Nat} (h : AcceptedCount n) : 1 ≤ n := by
  rcases acceptedCount_iff.mp h with ⟨hpos, -⟩ | rfl
  · exact hpos
  · decide

/-- **Which counts are safe.** The current time comes from the system clock, which does not run
before 1970: up to `m` the accepted counts of a rule do what they are for if and only if there are
`m` periods from the first date of the calendar to the current one. -/
theorem countsGrow_iff (r : PeriodRule) (zone : Zone) (now : Int) (m : Nat) (hzone : zone.Bounded)
    (hclock : 0 ≤ now) (hnow : InRange now) (hdate : DateInRange (zone.dateNaive now)) :
    CountsGrow r zone now m ↔ (m : Int) ≤ r.maxCount zone now := by
  obtain ⟨hpos, hbound⟩ := r.maxCount_bounds hnow hdate
  obtain ⟨κ, hκ, key, hkey⟩ := r.exists_key zone now
  constructor
  · intro h
    by_contra hlt
    -- the next count is accepted
    obtain ⟨n, hn⟩ : ∃ n : Nat, (n : Int) = r.maxCount zone now + 1 := ⟨_,
      Int.toNat_of_nonneg (by omega)⟩
    have haccepted : ∀ k : Nat, 1 ≤ k → k ≤ n → AcceptedCount k := by
      intro k hk hle
      refine acceptedCount_iff.mpr (Or.inl ⟨hk, ?_⟩)
      unfold isizeMax
      omega
    rcases r.cutoff_succ hzone hnow hdate hn with hnone | ⟨hnext, hone, c, hc, hearly⟩
    · obtain ⟨kept₁, -, hkept₁, -⟩ := h n n (haccepted n (by omega) (le_refl _))
        (haccepted n (by omega) (le_refl _)) (le_refl _) (by omega) []
        ⟨List.Pairwise.nil, fun _ he => absurd he List.not_mem_nil,
          fun _ he => absurd he List.not_mem_nil⟩
      rw [applyRetentionRules_single hdate, hkey, hnone] at hkept₁
      cases hkept₁
    · -- a snapshot of the nanosecond before 1970
      have htimed : TimedSnapshots zone now [⟨⟨1, -1⟩, []⟩] := by
        refine ⟨List.pairwise_singleton _ _, fun e he => ?_, fun e he => ?_⟩
        · rw [List.mem_singleton.mp he]
          exact (show (-1 : Int) ≤ 0 by decide).trans hclock
        · rw [List.mem_singleton.mp he]
          refine ⟨by decide, ?_⟩
          have hoffset := hzone (-1)
          dsimp only
          unfold DateInRange Zone.dateNaive Zone.naiveLocal
          rw [dates_eq.1, dates_eq.2]
          unfold nanosPerDay nanosPerSecond
          omega
      obtain ⟨kept₁, kept₂, hkept₁, hkept₂, hsub, -⟩ := h (n - 1) n (haccepted _ hone (Nat.sub_le _ _))
        (haccepted n (by omega) (le_refl _)) (Nat.sub_le _ _) (by omega) _ htimed
      rw [applyRetentionRules_single hdate, hkey, hc] at hkept₁
      rw [applyRetentionRules_single hdate, hkey, hnext] at hkept₂
      cases hkept₁
      cases hkept₂
      have hfirst : (1 : ID) ∈ keepLatestPerPeriod (snapshotEntries [⟨⟨1, -1⟩, []⟩]) key c :=
        mem_keepLatestPerPeriod.mpr ⟨_,
          ⟨[], [], rfl, hearly, fun y hy => absurd hy List.not_mem_nil⟩, rfl⟩
      obtain ⟨e, he, -⟩ := mem_keepLatestPerPeriod.mp (hsub hfirst)
      obtain ⟨-, hcut⟩ := (latestOf_cutoff_iff (snapshotEntries_sorted htimed.sorted)).mp he
      rw [List.mem_singleton.mp he.mem] at hcut
      exact absurd (hclock.trans hcut) (by decide)
  · intro hle n₁ n₂ hn₁ hn₂ hcount hm l hl
    have hsafe : (n₂ : Int) ≤ r.maxCount zone now := by omega
    obtain ⟨c₁, c₂, hc₁, hc₂, hanti⟩ :=
      r.cutoff_anti hzone hnow hdate (acceptedCount_pos hn₁) hcount hsafe
    refine ⟨keepLatestPerPeriod (snapshotEntries l) key c₁,
      keepLatestPerPeriod (snapshotEntries l) key c₂, ?_, ?_,
      keepLatestPerPeriod_mono (snapshotEntries_sorted hl.sorted) hanti, fun hall => ?_⟩
    · rw [applyRetentionRules_single hdate, hkey, hc₁, Option.map_some]
    · rw [applyRetentionRules_single hdate, hkey, hc₂, Option.map_some]
    · -- `all` is not a safe count
      unfold usizeMax at hall
      omega

theorem countsGrow_may : CountsGrow .yearly (.fixed 3600) (20202 * nanosPerDay) 1000 :=
  (countsGrow_iff .yearly (.fixed 3600) (20202 * nanosPerDay) 1000
    (fun _ => (by decide : (-86400 : Int) < 3600 ∧ (3600 : Int) < 86400)) (by decide) (by decide)
    (by decide +kernel)).mpr (by decide +kernel)

/-- **With `all` nothing is kept**: for the rule by years and for that by weeks the cutoff is in the
future. A large count of days is a panic. -/
theorem all_keeps_nothing :
    parseRetentionNumber "all" = .ok usizeMax ∧
    applyRetentionRules (.fixed 3600) taggedSnapshots (20202 * nanosPerDay) [.keepYearly 1] none =
      some {3} ∧
    applyRetentionRules (.fixed 3600) taggedSnapshots (20202 * nanosPerDay) [.keepYearly usizeMax]
      none =
      some ∅ ∧
    applyRetentionRules (.fixed 3600) taggedSnapshots (20202 * nanosPerDay) [.keepWeekly usizeMax]
      none =
      some ∅ ∧
    AcceptedCount 1000000000 ∧
    applyRetentionRules (.fixed 3600) taggedSnapshots (20202 * nanosPerDay) [.keepDaily 1000000000]
      none =
      none :=
  ⟨rfl, by decide +kernel, by decide +kernel, by decide +kernel,
    acceptedCount_iff.mpr (Or.inl ⟨by decide, by decide⟩), by decide +kernel⟩

end CountsGrow

end Mapache
