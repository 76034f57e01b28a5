import Mapache.Repository.RetentionRules

/-!
# One snapshot per period

What the rules of `apply_retention_rules` that go by calendar periods keep. A period rule is exact
if and only if, for every snapshot that is the latest of its period, the cutoff and the period agree
(`keepLatest_exact_iff`). For years and months of a fixed offset they always do
(`keepYearly_keepMonthly_exact`). The weeks are those of the calendar where the keys tell them apart
(`keepWeekly_exact_iff`). The cutoff of `KeepHourly` has the nanoseconds of the current time
(`keepHourly_exact_iff`), and that of `KeepDaily` is a multiple of 24 hours before the start of the
day, which need not be the start of a day (`keepDaily_exact_iff`).
-/

set_option autoImplicit false

namespace Mapache

open Lib

/-- What a rule is to keep: the latest snapshot of every period from `first` on. -/
def KeepsPeriods (period : SnapshotEntry → Int) (first : Int) (l : List SnapshotEntry)
    (kept : Finset ID) : Prop :=
  ∀ id, id ∈ kept ↔ ∃ e, LatestOf (fun e => first ≤ period e) period l e ∧ e.id = id

/-- The last snapshot of its period, whatever a rule admits. -/
def LastOf {κ : Type} (period : SnapshotEntry → κ) (l : List SnapshotEntry) (e : SnapshotEntry) :
    Prop :=
  LatestOf (fun _ => True) period l e

/-! ## Cutoffs and periods -/

section Exact

variable {κ : Type} {key : SnapshotEntry → κ} {period : SnapshotEntry → Int}
  {admitted admitted' : SnapshotEntry → Prop} {l : List SnapshotEntry} {e : SnapshotEntry}
  {cutOff first : Int}

/-- With an entry the later ones of its key are admitted: then the latest admitted one is the latest
of all. -/
theorem latestOf_iff (h : ∀ before after, l = before ++ e :: after → admitted e →
    ∀ y ∈ after, key y = key e → admitted y) :
    LatestOf admitted key l e ↔ LastOf key l e ∧ admitted e := by
  constructor
  · rintro ⟨before, after, rfl, hadm, hafter⟩
    refine ⟨⟨before, after, rfl, trivial, fun y hy _ hkey => ?_⟩, hadm⟩
    exact hafter y hy (h before after rfl hadm y hy hkey) hkey
  · rintro ⟨⟨before, after, rfl, -, hafter⟩, hadm⟩
    exact ⟨before, after, rfl, hadm, fun y hy _ => hafter y hy trivial⟩

theorem latestOf_cutoff_iff (hsorted : l.Pairwise fun a b => a.timestamp ≤ b.timestamp) :
    LatestOf (fun e => cutOff ≤ e.timestamp) key l e ↔ LastOf key l e ∧ cutOff ≤ e.timestamp := by
  refine latestOf_iff fun before after heq hadm y hy _ => ?_
  subst heq
  exact hadm.trans (List.rel_of_pairwise_cons (List.pairwise_append.mp hsorted).2.1 hy)

theorem latestOf_period_iff :
    LatestOf (fun e => first ≤ period e) period l e ↔ LastOf period l e ∧ first ≤ period e := by
  refine latestOf_iff fun before after _ hadm y _ hkey => ?_
  rw [hkey]
  exact hadm

/-- What the helper keeps, for keys that tell the periods apart. -/
theorem mem_keepLatestPerPeriod_period [DecidableEq κ] {κ' : Type} {period : SnapshotEntry → κ'}
    {id : ID} (hkey : ∀ a b, key a = key b ↔ period a = period b) :
    id ∈ keepLatestPerPeriod l key cutOff ↔
      ∃ e, LatestOf (fun e => cutOff ≤ e.timestamp) period l e ∧ e.id = id := by
  rw [mem_keepLatestPerPeriod]
  constructor
  · rintro ⟨e, he, hid⟩
    exact ⟨e, he.congr fun a _ b _ _ _ => (hkey a b).mpr, hid⟩
  · rintro ⟨e, he, hid⟩
    exact ⟨e, he.congr fun a _ b _ _ _ => (hkey a b).mp, hid⟩

/-- A cutoff at the start of the first period is exact. -/
theorem keepsPeriods_of_cutoff [DecidableEq κ] (hkey : ∀ a b, key a = key b ↔ period a = period b)
    (hcut : ∀ e : SnapshotEntry, cutOff ≤ e.timestamp ↔ first ≤ period e) :
    KeepsPeriods period first l (keepLatestPerPeriod l key cutOff) := by
  intro id
  rw [mem_keepLatestPerPeriod_period hkey]
  simp only [hcut]

/-- **When a period rule is exact**: the cutoff and the period agree on the last snapshot of every
period.
-/
theorem keepLatest_exact_iff [DecidableEq κ] (hkey : ∀ a b, key a = key b ↔ period a = period b)
    (hsorted : l.Pairwise fun a b => a.timestamp ≤ b.timestamp)
    (hids : (l.map SnapshotEntry.id).Nodup) :
    KeepsPeriods period first l (keepLatestPerPeriod l key cutOff) ↔
      ∀ e, LastOf period l e → (cutOff ≤ e.timestamp ↔ first ≤ period e) := by
  -- the sets have IDs, and an ID stands for one snapshot
  have hinj : ∀ x ∈ l, ∀ y ∈ l, x.id = y.id → x = y := fun x hx y hy =>
    List.inj_on_of_nodup_map hids hx hy
  unfold KeepsPeriods
  simp only [mem_keepLatestPerPeriod_period hkey, latestOf_cutoff_iff hsorted, latestOf_period_iff]
  constructor
  · intro h e he
    constructor
    · intro hcut
      obtain ⟨e', ⟨he', hfirst⟩, hid⟩ := (h e.id).mp ⟨e, ⟨he, hcut⟩, rfl⟩
      exact hinj e' he'.mem e he.mem hid ▸ hfirst
    · intro hfirst
      obtain ⟨e', ⟨he', hcut⟩, hid⟩ := (h e.id).mpr ⟨e, ⟨he, hfirst⟩, rfl⟩
      exact hinj e' he'.mem e he.mem hid ▸ hcut
  · intro h id
    refine exists_congr fun e => and_congr_left' (and_congr_right fun he => h e he)

theorem snapshotEntries_sorted {l : List TaggedEntry}
    (hsorted : l.Pairwise fun a b => a.timestamp ≤ b.timestamp) :
    (snapshotEntries l).Pairwise fun a b => a.timestamp ≤ b.timestamp :=
  List.pairwise_map.mpr hsorted

theorem snapshotEntries_nodup {l : List TaggedEntry} (hids : (l.map fun e => e.id).Nodup) :
    ((snapshotEntries l).map SnapshotEntry.id).Nodup := by
  rw [snapshotEntries, List.map_map]
  exact hids

end Exact

/-! ## Starts of dates -/

section Dates

variable {zone : Zone} {date : Int}

theorem mem_fromLocal {naive t : Int} (h : t ∈ zone.fromLocal naive) : InRange t := by
  unfold Zone.fromLocal at h
  dsimp only at h
  split at h
  · rename_i hall
    exact hall t h
  · cases h

theorem DateInRange.inRange (h : DateInRange date) : InRange (date * nanosPerDay) := by
  have hpos : (0 : Int) ≤ nanosPerDay := by decide
  have hlow := mul_le_mul_of_nonneg_right h.1 hpos
  have hhigh := mul_le_mul_of_nonneg_right (Int.add_le_add_right h.2 1) hpos
  refine ⟨hlow, ?_⟩
  have hday : (0 : Int) < nanosPerDay := by decide
  rw [add_mul] at hhigh
  omega

/-- A date starts at a point in time that can be represented. -/
theorem startOfDate_inRange (h : DateInRange date) : InRange (zone.startOfDate date) := by
  unfold Zone.startOfDate
  dsimp only
  cases hfirst : (zone.fromLocal (date * nanosPerDay)).head? with
  | some t => exact mem_fromLocal (List.mem_of_mem_head? hfirst)
  | none =>
    -- the date begins in a gap: the code tries one hour later
    rw [Option.getD_none]
    cases hnext : (zone.fromLocal (date * nanosPerDay + nanosPerHour)).head? with
    | some t => exact mem_fromLocal (List.mem_of_mem_head? hnext)
    | none => exact h.inRange

theorem fromLocal_fixed {offset naive : Int} (h : InRange (naive - offset * nanosPerSecond)) :
    (Zone.fixed offset).fromLocal naive = [naive - offset * nanosPerSecond] := by
  simp [Zone.fromLocal, Zone.fixed, h]

theorem startOfDate_fixed {offset : Int} (h : InRange (date * nanosPerDay - offset * nanosPerSecond)) :
    (Zone.fixed offset).startOfDate date = (Zone.fixed offset).startOfDay date := by
  rw [Zone.startOfDay_fixed, Zone.startOfDate, fromLocal_fixed h]
  rfl

end Dates

/-! ## Durations -/

section Durations

variable {t unit : Int} {n : Nat}

theorem signed_of_lt {bits : Nat} {n : Int} (hlow : -(2 ^ bits) ≤ 2 * n) (hhigh : 2 * n < 2 ^ bits) :
    signed bits n = n := by
  unfold signed
  apply Int.bmod_eq_of_le <;> push_cast <;> omega

theorem dates_eq : minDate = -96465292 ∧ maxDate = 95026236 := by decide

/-- A count of units that leads from one point in time to another one is not cut off. -/
theorem duration_of_inRange (hn : 1 ≤ n) (hunit : nanosPerSecond ≤ unit) (ht : InRange t)
    (hcut : InRange (t - (n - 1) * unit)) : duration unit (signed 64 (n - 1)) =
    some ((n - 1) * unit) := by
  have hcount : (0 : Int) ≤ (n : Int) - 1 := by omega
  have hmul : ((n : Int) - 1) * nanosPerSecond ≤ (n - 1) * unit := mul_le_mul_of_nonneg_left hunit
    hcount
  obtain ⟨hmin, hmax⟩ := dates_eq
  have hhigh := ht.2
  have hlow := hcut.1
  rw [hmin] at hlow
  rw [hmax] at hhigh
  unfold nanosPerDay nanosPerSecond at *
  rw [signed_of_lt (by norm_num; omega) (by norm_num; omega), duration, mul_comm unit]
  exact if_pos (abs_le.mpr ⟨by norm_num; omega, by norm_num; omega⟩)

theorem subTime_duration (hn : 1 ≤ n) (hunit : nanosPerSecond ≤ unit) (ht : InRange t)
    (hcut : InRange (t - (n - 1) * unit)) :
    ((duration unit (signed 64 (n - 1))).bind fun delta => subTime t delta) =
      some (t - (n - 1) * unit) := by
  rw [duration_of_inRange hn hunit ht hcut, Option.bind_some, subTime, if_pos hcut]

end Durations

/-! ## Years and months -/

/-- The start of the date is a date and a point in time that can be represented. -/
def CutoffRepresentable (offset date : Int) : Prop :=
  DateInRange date ∧ InRange (date * nanosPerDay - offset * nanosPerSecond)

/-- The year of a snapshot. -/
def yearPeriod (zone : Zone) (e : SnapshotEntry) : Int := yearOf (zone.dateNaive e.timestamp)

/-- The month of a snapshot, numbered through the years. -/
def monthPeriod (zone : Zone) (e : SnapshotEntry) : Int := monthIndex (zone.dateNaive e.timestamp)

section Months

variable {year month date index : Int} {rounds : Nat}

theorem dateInRange_iff : DateInRange date ↔ minYear ≤ yearOf date ∧ yearOf date ≤ maxYear := by
  unfold DateInRange minDate maxDate
  have hmax : yearStart (maxYear + 1) ≤ date ↔ maxYear + 1 ≤ yearOf date := yearStart_le_iff
  rw [yearStart_le_iff]
  omega

/-- The first day of a month of a year in range. -/
theorem fromYmdOpt_first (hmonth : 1 ≤ month ∧ month ≤ 12) : fromYmdOpt year month 1 =
    if minYear ≤ year ∧ year ≤ maxYear then some (monthStart year month) else none := by
  have hdays : 28 ≤ daysInMonth year month := daysInMonth_pos hmonth.1 hmonth.2
  unfold fromYmdOpt
  split
  · rename_i h
    rw [if_pos h.1]
    exact congrArg some (by omega)
  · rename_i h
    rw [if_neg fun hyear => h ⟨hyear, hmonth, by omega⟩]

theorem withDay_one (h : DateInRange date) :
    withDay date 1 = some (firstOfMonth (monthIndex date)) := by
  obtain ⟨hlow, hhigh, -⟩ := monthOf_spec date
  rw [withDay, fromYmdOpt_first ⟨hlow, hhigh⟩, if_pos (dateInRange_iff.mp h), firstOfMonth_monthIndex]

/-- A round goes back one month, down to the first one of all. -/
theorem monthBack_firstOfMonth (hhigh : index / 12 ≤ maxYear) (hlow : minYear ≤ index / 12) :
    monthBack (firstOfMonth index) =
      if 12 * minYear ≤ index - 1 then some (firstOfMonth (index - 1)) else none := by
  obtain ⟨hyear, hmonth, hday⟩ := @monthStart_parts (index / 12) (index % 12 + 1) (by omega) (by omega)
  rw [monthBack, firstOfMonth, hmonth, hyear]
  by_cases hfirst : index % 12 = 0
  · have hdiv : (index - 1) / 12 = index / 12 - 1 := by omega
    have hmod : (index - 1) % 12 + 1 = 12 := by omega
    rw [if_pos (by omega), withYear, hmonth, hday, fromYmdOpt_first (by omega), firstOfMonth, hdiv,
      hmod]
    by_cases hprev : minYear ≤ index / 12 - 1
    · obtain ⟨hyear', -, hday'⟩ := @monthStart_parts (index / 12 - 1) (index % 12 + 1) (by omega)
        (by omega)
      rw [if_pos (by omega), Option.bind_some, withMonth, hyear', hday', fromYmdOpt_first (by omega),
        if_pos (by omega), if_pos (by omega)]
    · rw [if_neg (by omega), Option.bind_none, if_neg (by omega)]
  · have hdiv : (index - 1) / 12 = index / 12 := by omega
    have hmod : (index - 1) % 12 + 1 = index % 12 + 1 - 1 := by omega
    rw [if_neg (by omega), withMonth, hyear, hday, fromYmdOpt_first (by omega), if_pos (by omega),
      if_pos (by omega), firstOfMonth, hdiv, hmod]

/-- The rounds together. -/
theorem monthsBack_firstOfMonth (rounds : Nat) (hhigh : index / 12 ≤ maxYear)
    (hlow : minYear ≤ index / 12) : monthsBack rounds (firstOfMonth index) =
      if 12 * minYear ≤ index - rounds then some (firstOfMonth (index - rounds)) else none := by
  induction rounds generalizing index with
  | zero =>
    rw [monthsBack, if_pos (by omega)]
    exact congrArg _ (congrArg _ (by omega))
  | succ rounds ih =>
    rw [monthsBack, monthBack_firstOfMonth hhigh hlow]
    by_cases hprev : 12 * minYear ≤ index - 1
    · rw [if_pos hprev, Option.bind_some, ih (by omega) (by omega)]
      have heq : index - 1 - (rounds : Int) = index - ((rounds + 1 : Nat) : Int) := by omega
      rw [heq]
    · rw [if_neg hprev, Option.bind_none, if_neg (by omega)]

end Months

section YearsMonths

variable {offset now : Int} {n : Nat} {zone : Zone}

/-- The year of the cutoff, where the year is in range. -/
theorem yearlyCutoff_of_le (hn : 1 ≤ n) (hnow : DateInRange (zone.dateNaive now))
    (hyear : minYear ≤ yearOf (zone.dateNaive now) - (n - 1)) :
    yearlyCutoff zone now n = zone.startOfDate
      (yearStart (yearOf (zone.dateNaive now) - (n - 1))) := by
  have hmin : minYear = -262143 := rfl
  have hmax : maxYear = 262142 := rfl
  have hrange := dateInRange_iff.mp hnow
  have hcount : signed 32 ((n : Int) - 1) = n - 1 :=
    signed_of_lt (by norm_num; omega) (by norm_num; omega)
  have htarget : signed 32 (yearOf (zone.dateNaive now) - (n - 1)) =
      yearOf (zone.dateNaive now) - (n - 1) := signed_of_lt (by norm_num; omega) (by norm_num; omega)
  have hdate : fromYmdOpt (yearOf (zone.dateNaive now) - (n - 1)) 1 1 =
      some (yearStart (yearOf (zone.dateNaive now) - (n - 1))) := by
    rw [fromYmdOpt_first (by decide), if_pos ⟨hyear, by omega⟩, monthStart_one]
  unfold yearlyCutoff
  simp only [hcount, htarget, hdate]

/-- The month of the cutoff, where it is in range. -/
theorem monthlyCutoff_eq (hn : 1 ≤ n) (hnow : DateInRange (zone.dateNaive now)) :
    monthlyCutoff zone now n =
      if 12 * minYear ≤ monthIndex (zone.dateNaive now) - (n - 1) then
        zone.startOfDate (firstOfMonth (monthIndex (zone.dateNaive now) - (n - 1)))
      else now := by
  have hrange := dateInRange_iff.mp hnow
  obtain ⟨hlow, hhigh, -⟩ := monthOf_spec (zone.dateNaive now)
  have hdiv : monthIndex (zone.dateNaive now) / 12 = yearOf (zone.dateNaive now) := by
    unfold monthIndex
    omega
  have hcast : ((n - 1 : Nat) : Int) = n - 1 := by omega
  rw [monthlyCutoff, withDay_one hnow, Option.bind_some,
    monthsBack_firstOfMonth _ (by omega) (by omega), hcast]
  by_cases hmonth : 12 * minYear ≤ monthIndex (zone.dateNaive now) - (n - 1)
  · rw [if_pos hmonth, if_pos hmonth]
  · rw [if_neg hmonth, if_neg hmonth]

end YearsMonths

/-- **`KeepYearly` and `KeepMonthly` are exact** in a zone of fixed offset, as long as the cutoff
can be represented. -/
theorem keepYearly_keepMonthly_exact (offset now : Int) (n : Nat) (l : List TaggedEntry) (hn : 1 ≤ n)
    (hnow : DateInRange ((Zone.fixed offset).dateNaive now)) :
    (CutoffRepresentable offset (yearStart (yearOf ((Zone.fixed offset).dateNaive now) - (n - 1))) →
      ∃ kept, applyRetentionRules (.fixed offset) l now [.keepYearly n] none = some kept ∧
        KeepsPeriods (yearPeriod (.fixed offset)) (yearOf ((Zone.fixed offset).dateNaive now) -
          (n - 1))
          (snapshotEntries l) kept) ∧
    (CutoffRepresentable offset
        (firstOfMonth (monthIndex ((Zone.fixed offset).dateNaive now) - (n - 1))) →
      ∃ kept, applyRetentionRules (.fixed offset) l now [.keepMonthly n] none = some kept ∧
        KeepsPeriods (monthPeriod (.fixed offset))
          (monthIndex ((Zone.fixed offset).dateNaive now) - (n - 1)) (snapshotEntries l) kept) := by
  constructor
  · rintro ⟨hdate, hrange⟩
    refine ⟨_, applyRetentionRules_single hnow, keepsPeriods_of_cutoff (fun a b => Iff.rfl) fun e =>
      ?_⟩
    -- the year of the cutoff is one that a date can have
    have hyear : minYear ≤ yearOf ((Zone.fixed offset).dateNaive now) - (n - 1) := by
      by_contra hlt
      have hmono := yearStart_mono (show yearOf ((Zone.fixed offset).dateNaive now) - (n - 1) + 1 ≤
        minYear by omega)
      have hsucc := yearStart_succ (yearOf ((Zone.fixed offset).dateNaive now) - (n - 1))
      have hlow : yearStart minYear ≤ _ := hdate.1
      split at hsucc <;> omega
    rw [yearlyCutoff_of_le hn hnow hyear, startOfDate_fixed hrange, Zone.startOfDay_le_iff,
      yearStart_le_iff]
    rfl
  · rintro ⟨hdate, hrange⟩
    refine ⟨_, applyRetentionRules_single hnow, keepsPeriods_of_cutoff (fun a b => ?_) fun e => ?_⟩
    · rw [monthKey, monthKey, Prod.mk.injEq]
      exact monthIndex_eq_iff.symm
    · have hmonth : 12 * minYear ≤ monthIndex ((Zone.fixed offset).dateNaive now) - (n - 1) := by
        have hle := (dateInRange_iff.mp hdate).1
        have hindex := monthIndex_firstOfMonth (monthIndex ((Zone.fixed offset).dateNaive now) -
          (n - 1))
        obtain ⟨hlow, -⟩ := monthOf_spec
          (firstOfMonth (monthIndex ((Zone.fixed offset).dateNaive now) - (n - 1)))
        rw [← hindex, monthIndex]
        omega
      rw [monthlyCutoff_eq hn hnow, if_pos hmonth, startOfDate_fixed hrange, Zone.startOfDay_le_iff,
        firstOfMonth_le_iff]
      rfl

theorem keepYearly_keepMonthly_may :
    (∃ kept, applyRetentionRules (.fixed 3600) taggedSnapshots (20202 * nanosPerDay) [.keepYearly 3]
    none =
      some kept ∧ KeepsPeriods (yearPeriod (.fixed 3600))
        (yearOf ((Zone.fixed 3600).dateNaive (20202 * nanosPerDay)) - ((3 : Nat) - 1))
        (snapshotEntries taggedSnapshots) kept) ∧
    ∃ kept, applyRetentionRules (.fixed 3600) taggedSnapshots (20202 * nanosPerDay) [.keepMonthly 3]
      none =
      some kept ∧ KeepsPeriods (monthPeriod (.fixed 3600))
        (monthIndex ((Zone.fixed 3600).dateNaive (20202 * nanosPerDay)) - ((3 : Nat) - 1))
        (snapshotEntries taggedSnapshots) kept :=
  have h := keepYearly_keepMonthly_exact 3600 (20202 * nanosPerDay) 3 taggedSnapshots (by decide)
    (by decide +kernel)
  ⟨h.1 ⟨by decide +kernel, by decide +kernel⟩, h.2 ⟨by decide +kernel, by decide +kernel⟩⟩

/-! ## Weeks -/

section Weeks

variable {zone : Zone} {offset now : Int} {n : Nat} {l : List SnapshotEntry}

/-- The Monday of the cutoff, where it is a date. -/
theorem weeklyCutoff_of_date (hn : 1 ≤ n) (hnow : DateInRange (zone.dateNaive now))
    (htarget : DateInRange (targetMonday zone now n)) :
    weeklyCutoff zone now n = some (zone.startOfDate (targetMonday zone now n)) := by
  have hle := (mondayOf_le (zone.dateNaive now)).1
  have hmonday : DateInRange (mondayOf (zone.dateNaive now)) := by
    refine ⟨htarget.1.trans ?_, hle.trans hnow.2⟩
    unfold targetMonday
    omega
  have hcut : mondayOf (zone.dateNaive now) * nanosPerDay - (n - 1) * (7 * nanosPerDay) =
      targetMonday zone now n * nanosPerDay := by
    unfold targetMonday
    ring
  have hduration : duration (7 * nanosPerDay) (signed 64 (n - 1)) = some ((n - 1) * (7 * nanosPerDay)) :=
    duration_of_inRange hn (by decide) hmonday.inRange (hcut ▸ htarget.inRange)
  have hday : nanosPerDay ≠ 0 := by decide
  have hweeks : ((n : Int) - 1) * (7 * nanosPerDay) = nanosPerDay * (7 * (n - 1)) := by ring
  have hcurrent : zone.dateNaive now - daysFromMonday (zone.dateNaive now) =
      mondayOf (zone.dateNaive now) := rfl
  unfold weeklyCutoff
  rw [duration_daysFromMonday, hduration, hweeks]
  simp only [Option.bind_eq_bind, Option.bind_some, subDate, Int.mul_tdiv_cancel_left _ hday, hcurrent]
  rw [if_pos hmonday, Option.bind_some]
  exact congrArg (fun date => Option.bind date _) (if_pos htarget)

/-- **When `KeepWeekly` keeps one snapshot per week.** For snapshots in the order of their times,
with distinct IDs and in a zone of fixed offset, it keeps exactly the latest snapshot of every week
in range if and only if the calendar year and the ISO week number tell the weeks of these snapshots
apart. This is what `apply_retention_rules` keeps wherever the cutoff can be represented. -/
theorem keepWeekly_exact_iff (hsorted : l.Pairwise fun a b => a.timestamp ≤ b.timestamp)
    (hids : (l.map SnapshotEntry.id).Nodup) :
    (KeepsWeeks offset l now n (keepWeekly (.fixed offset) l now n) ↔
      KeysSeparate (.fixed offset) l now n) ∧
    ∀ tagged, snapshotEntries tagged = l → 1 ≤ n → DateInRange ((Zone.fixed offset).dateNaive now) →
      CutoffRepresentable offset (targetMonday (.fixed offset) now n) →
      applyRetentionRules (.fixed offset) tagged now [.keepWeekly n] none =
        some (keepWeekly (.fixed offset) l now n) := by
  refine ⟨keepsWeeks_keepWeekly_iff hsorted hids, fun tagged htagged hn hnow hcut => ?_⟩
  rw [applyRetentionRules_single hnow, RetentionRule.idsToKeep, htagged,
    weeklyCutoff_of_date hn hnow hcut.1, startOfDate_fixed hcut.2]
  rfl

end Weeks

/-- Two snapshots of one day in May 2025. -/
def maySnapshots : List SnapshotEntry := [⟨1, 20200 * nanosPerDay⟩, ⟨2, 20200 * nanosPerDay + 1⟩]

theorem keepWeekly_may : ∃ kept,
    applyRetentionRules (.fixed 3600) (maySnapshots.map fun e => ⟨e, []⟩) (20201 * nanosPerDay)
      [.keepWeekly 2] none = some kept ∧
    KeepsWeeks 3600 maySnapshots (20201 * nanosPerDay) 2 kept := by
  obtain ⟨hexact, hrule⟩ := @keepWeekly_exact_iff 3600 (20201 * nanosPerDay) 2
    maySnapshots (by decide) (by decide)
  exact ⟨_, hrule _ rfl (by decide) (by decide +kernel) ⟨by decide +kernel, by decide +kernel⟩,
    hexact.mpr (keysSeparate_of_isoYear (by decide))⟩

/-! ## Hours -/

/-- The hour of a snapshot, numbered through the days. -/
def hourPeriod (zone : Zone) (e : SnapshotEntry) : Int := zone.naiveLocal e.timestamp / nanosPerHour

section Hours

variable {zone : Zone} {offset now naive : Int} {n : Nat}

theorem hourKey_eq_iff (a b : SnapshotEntry) :
    hourKey zone a = hourKey zone b ↔ hourPeriod zone a = hourPeriod zone b := by
  rw [hourKey, hourKey, Prod.mk.injEq]
  unfold hourPeriod Zone.dateNaive Zone.hour nanosPerDay nanosPerHour nanosPerSecond
  omega

theorem single_fixed (h : InRange (naive - offset * nanosPerSecond)) :
    (Zone.fixed offset).single naive = some (naive - offset * nanosPerSecond) := by
  rw [Zone.single, fromLocal_fixed h]

/-- The current hour with the nanoseconds of the current time. -/
def truncatedHour (offset now : Int) : Int :=
  (Zone.fixed offset).naiveLocal now / nanosPerHour * nanosPerHour +
    (Zone.fixed offset).naiveLocal now % nanosPerSecond

theorem truncatedNow_fixed (hnow : InRange now)
    (hcut : InRange (truncatedHour offset now - offset * nanosPerSecond)) :
    truncatedNow (.fixed offset) now = truncatedHour offset now - offset * nanosPerSecond := by
  have hnaive : now = (Zone.fixed offset).naiveLocal now - offset * nanosPerSecond := by
    rw [Zone.naiveLocal_fixed]
    omega
  unfold truncatedHour at hcut ⊢
  rw [truncatedNow, Zone.zeroMinute]
  generalize hlocal : (Zone.fixed offset).naiveLocal now = naive at hnaive hcut ⊢
  have hminute : InRange (naive - naive / nanosPerMinute % 60 * nanosPerMinute - offset *
      nanosPerSecond) := by
    subst hnaive
    unfold InRange nanosPerMinute nanosPerHour nanosPerSecond at *
    omega
  rw [single_fixed hminute, Option.bind_some, Zone.zeroSecond, Zone.naiveLocal_fixed]
  -- minutes and seconds are cut off, the nanoseconds are left
  have hsecond : ∀ local' : Int,
      local' = naive - naive / nanosPerMinute % 60 * nanosPerMinute →
      local' - local' / nanosPerSecond % 60 * nanosPerSecond =
        naive / nanosPerHour * nanosPerHour + naive % nanosPerSecond := by
    intro local' hlocal'
    unfold nanosPerMinute nanosPerHour nanosPerSecond at *
    omega
  rw [hsecond _ (by omega), single_fixed hcut]
  rfl

theorem hourlyCutoff_fixed (hn : 1 ≤ n) (hnow : InRange now)
    (htrunc : InRange (truncatedHour offset now - offset * nanosPerSecond))
    (hcut : InRange (truncatedHour offset now - offset * nanosPerSecond - (n - 1) * nanosPerHour)) :
    hourlyCutoff (.fixed offset) now n =
      some (truncatedHour offset now - offset * nanosPerSecond - (n - 1) * nanosPerHour) := by
  rw [hourlyCutoff, truncatedNow_fixed hnow htrunc]
  exact subTime_duration hn (by decide) htrunc hcut

end Hours

/-- The points in time that `KeepHourly(n)` computes with can be represented. -/
def HoursInRange (offset now : Int) (n : Nat) : Prop :=
  InRange now ∧ DateInRange ((Zone.fixed offset).dateNaive now) ∧
    InRange (truncatedHour offset now - offset * nanosPerSecond) ∧
    InRange (truncatedHour offset now - offset * nanosPerSecond - (n - 1) * nanosPerHour)

/-- The first of the last `n` hours. -/
def firstHour (offset now : Int) (n : Nat) : Int :=
  (Zone.fixed offset).naiveLocal now / nanosPerHour - (n - 1)

/-- **When `KeepHourly` is exact.** In a zone of fixed offset it keeps exactly the latest snapshot
of each of the last `n` hours if and only if the latest one of the first of these hours was made no
sooner after the start of the hour than the current time's nanoseconds. -/
theorem keepHourly_exact_iff (offset now : Int) (n : Nat) (l : List TaggedEntry) (hn : 1 ≤ n)
    (hrange : HoursInRange offset now n)
    (hsorted : l.Pairwise fun a b => a.timestamp ≤ b.timestamp)
    (hids : (l.map fun e => e.id).Nodup) :
    ∃ kept, applyRetentionRules (.fixed offset) l now [.keepHourly n] none = some kept ∧
      (KeepsPeriods (hourPeriod (.fixed offset)) (firstHour offset now n) (snapshotEntries l) kept ↔
        ∀ e, LastOf (hourPeriod (.fixed offset)) (snapshotEntries l) e →
          hourPeriod (.fixed offset) e = firstHour offset now n →
          (Zone.fixed offset).naiveLocal now % nanosPerSecond ≤
            (Zone.fixed offset).naiveLocal e.timestamp % nanosPerHour) := by
  obtain ⟨hnow, hdate, htrunc, hcut⟩ := hrange
  have hkept : applyRetentionRules (.fixed offset) l now [.keepHourly n] none =
      some (keepLatestPerPeriod (snapshotEntries l) (hourKey (.fixed offset))
        (truncatedHour offset now - offset * nanosPerSecond - (n - 1) * nanosPerHour)) := by
    rw [applyRetentionRules_single hdate, RetentionRule.idsToKeep,
      hourlyCutoff_fixed hn hnow htrunc hcut,
      Option.map_some]
  refine ⟨_, hkept, ?_⟩
  rw [keepLatest_exact_iff hourKey_eq_iff (snapshotEntries_sorted hsorted)
    (snapshotEntries_nodup hids)]
  refine forall_congr' fun e => forall_congr' fun _ => ?_
  -- the cutoff is the first hour and the nanoseconds
  rw [hourPeriod, firstHour, truncatedHour, Zone.naiveLocal_fixed, Zone.naiveLocal_fixed]
  unfold nanosPerHour nanosPerSecond
  omega

section HourSample

/-- One snapshot, made when an hour began. -/
def hourSnapshots : List TaggedEntry := [⟨⟨1, 20233 * nanosPerDay + 21 * nanosPerHour⟩, []⟩]

theorem keepHourly_may : ∃ kept,
    applyRetentionRules (.fixed 0) hourSnapshots (20233 * nanosPerDay + 22 * nanosPerHour)
      [.keepHourly 2] none =
      some kept ∧
    (KeepsPeriods (hourPeriod (.fixed 0)) (firstHour 0 (20233 * nanosPerDay + 22 * nanosPerHour) 2)
        (snapshotEntries hourSnapshots) kept ↔
      ∀ e, LastOf (hourPeriod (.fixed 0)) (snapshotEntries hourSnapshots) e →
        hourPeriod (.fixed 0) e = firstHour 0 (20233 * nanosPerDay + 22 * nanosPerHour) 2 →
        (Zone.fixed 0).naiveLocal (20233 * nanosPerDay + 22 * nanosPerHour) % nanosPerSecond ≤
          (Zone.fixed 0).naiveLocal e.timestamp % nanosPerHour) :=
  keepHourly_exact_iff 0 (20233 * nanosPerDay + 22 * nanosPerHour) 2 hourSnapshots (by decide)
    ⟨by decide +kernel, by decide +kernel, by decide +kernel, by decide +kernel⟩ (by decide)
      (by decide)

/-- **A snapshot of the current hour is not kept**: it was made at its start, and now is half a
second after a full minute. -/
theorem keepHourly_drops_hour :
    applyRetentionRules (.fixed 0) hourSnapshots (20233 * nanosPerDay + 21 * nanosPerHour + 500000000)
      [.keepHourly 1] none = some ∅ ∧
    ¬ KeepsPeriods (hourPeriod (.fixed 0))
      (firstHour 0 (20233 * nanosPerDay + 21 * nanosPerHour + 500000000) 1)
        (snapshotEntries hourSnapshots) ∅ := by
  refine ⟨by decide +kernel, fun h => ?_⟩
  refine absurd ((h 1).mpr ⟨_, ⟨[], [], rfl, ?_, fun y hy => absurd hy List.not_mem_nil⟩, rfl⟩)
    (Finset.notMem_empty 1)
  decide +kernel

end HourSample

/-! ## Days -/

/-- What `KeepDaily(n)` is to keep: the last snapshot of each of the last `n` days that has one, and
none of an earlier day. -/
structure KeepsDays (zone : Zone) (now : Int) (n : Nat) (l : List SnapshotEntry) (kept : Finset ID) :
    Prop where
  keeps : ∀ e, LastOf (dayKey zone) l e → zone.dateNaive now - (n - 1) ≤ dayKey zone e →
    dayKey zone e ≤ zone.dateNaive now → e.id ∈ kept
  only : ∀ id ∈ kept, ∃ e, LastOf (dayKey zone) l e ∧ zone.dateNaive now - (n - 1) ≤ dayKey zone e ∧
    e.id = id

/-- The time that passed from a snapshot to the start of the current day. -/
def beforeToday (zone : Zone) (now : Int) (e : SnapshotEntry) : Int :=
  zone.startOfDate (zone.dateNaive now) - e.timestamp

/-- The last snapshots of their days: those of the last `n` days were made at most `n - 1` times 24
hours before the start of the current day, and those made in this time are of no earlier day. -/
structure DaysMatch (zone : Zone) (now : Int) (n : Nat) (l : List SnapshotEntry) : Prop where
  recent : ∀ e, LastOf (dayKey zone) l e → zone.dateNaive now - (n - 1) ≤ dayKey zone e →
    dayKey zone e ≤ zone.dateNaive now → beforeToday zone now e ≤ (n - 1) * nanosPerDay
  within : ∀ e, LastOf (dayKey zone) l e → beforeToday zone now e ≤ (n - 1) * nanosPerDay →
    zone.dateNaive now - (n - 1) ≤ dayKey zone e

/-- **When `KeepDaily` keeps one snapshot per day**, in any time zone: if and only if 24 hours are a
day for the last snapshots of their days. -/
theorem keepDaily_exact_iff (zone : Zone) (now : Int) (n : Nat) (l : List TaggedEntry) (hn : 1 ≤ n)
    (hnow : DateInRange (zone.dateNaive now))
    (hrange : InRange (zone.startOfDate (zone.dateNaive now) - (n - 1) * nanosPerDay))
    (hsorted : l.Pairwise fun a b => a.timestamp ≤ b.timestamp)
    (hids : (l.map fun e => e.id).Nodup) :
    ∃ kept, applyRetentionRules zone l now [.keepDaily n] none = some kept ∧
      (KeepsDays zone now n (snapshotEntries l) kept ↔ DaysMatch zone now n (snapshotEntries l)) := by
  have hkept : applyRetentionRules zone l now [.keepDaily n] none =
      some (keepLatestPerPeriod (snapshotEntries l)
      (dayKey zone) (zone.startOfDate (zone.dateNaive now) - (n - 1) * nanosPerDay)) := by
    have hcut : dailyCutoff zone now n = _ :=
      subTime_duration hn (by decide) (startOfDate_inRange hnow) hrange
    rw [applyRetentionRules_single hnow, RetentionRule.idsToKeep, hcut, Option.map_some]
  refine ⟨_, hkept, ?_⟩
  have hinj : ∀ x ∈ snapshotEntries l, ∀ y ∈ snapshotEntries l, x.id = y.id → x = y := fun x hx y hy =>
    List.inj_on_of_nodup_map (snapshotEntries_nodup hids) hx hy
  have hmem : ∀ id, id ∈ keepLatestPerPeriod (snapshotEntries l) (dayKey zone)
      (zone.startOfDate (zone.dateNaive now) - (n - 1) * nanosPerDay) ↔
        ∃ e, (LastOf (dayKey zone) (snapshotEntries l) e ∧
          beforeToday zone now e ≤ (n - 1) * nanosPerDay) ∧ e.id = id := by
    intro id
    rw [mem_keepLatestPerPeriod]
    refine exists_congr fun e => and_congr_left' ?_
    rw [latestOf_cutoff_iff (snapshotEntries_sorted hsorted), beforeToday]
    exact and_congr_right fun _ => by omega
  constructor
  · intro h
    constructor
    · intro e he hfirst hlast
      obtain ⟨e', ⟨he', hle⟩, hid⟩ := (hmem e.id).mp (h.keeps e he hfirst hlast)
      exact hinj e' he'.mem e he.mem hid ▸ hle
    · intro e he hle
      obtain ⟨e', he', hfirst, hid⟩ := h.only e.id ((hmem e.id).mpr ⟨e, ⟨he, hle⟩, rfl⟩)
      exact hinj e' he'.mem e he.mem hid ▸ hfirst
  · intro h
    constructor
    · intro e he hfirst hlast
      exact (hmem e.id).mpr ⟨e, ⟨he, h.recent e he hfirst hlast⟩, rfl⟩
    · intro id hid
      obtain ⟨e, ⟨he, hle⟩, hid⟩ := (hmem id).mp hid
      exact ⟨e, he, h.within e he hle, hid⟩

section DaySample

theorem keepDaily_may : ∃ kept,
    applyRetentionRules (.fixed 3600) taggedSnapshots (20202 * nanosPerDay) [.keepDaily 3] none =
      some kept ∧
    (KeepsDays (.fixed 3600) (20202 * nanosPerDay) 3 (snapshotEntries taggedSnapshots) kept ↔
      DaysMatch (.fixed 3600) (20202 * nanosPerDay) 3 (snapshotEntries taggedSnapshots)) :=
  keepDaily_exact_iff (.fixed 3600) (20202 * nanosPerDay) 3 taggedSnapshots (by decide)
    (by decide +kernel) (by decide +kernel) (by decide) (by decide)

/-- Summer time that ends on 2025-10-26, at 01:00 UTC. -/
def summerTime : Zone where
  offset := fun t => if t < 20387 * nanosPerDay + nanosPerHour then 7200 else 3600
  offsets := [7200, 3600]
  mem := by
    intro t
    split
    · exact List.mem_cons_self
    · exact List.mem_cons_of_mem _ List.mem_cons_self
  sorted := by decide

/-- One snapshot, of 00:30 on the day of 25 hours. -/
def longDaySnapshots : List TaggedEntry :=
  [⟨⟨1, 20387 * nanosPerDay - 2 * nanosPerHour + 30 * nanosPerMinute⟩, []⟩]

/-- **Yesterday's snapshot is not kept**, though the last two days are: yesterday had 25 hours. -/
theorem keepDaily_drops_day :
    applyRetentionRules summerTime longDaySnapshots (20388 * nanosPerDay + 12 * nanosPerHour)
      [.keepDaily 2]
      none = some ∅ ∧
    ¬ KeepsDays summerTime (20388 * nanosPerDay + 12 * nanosPerHour) 2
      (snapshotEntries longDaySnapshots) ∅ := by
  refine ⟨by decide +kernel, fun h => ?_⟩
  refine absurd (h.keeps _ ⟨[], [], rfl, trivial, fun y hy => absurd hy List.not_mem_nil⟩ ?_ ?_)
    (Finset.notMem_empty 1)
  · decide +kernel
  · decide +kernel

end DaySample

end Mapache
