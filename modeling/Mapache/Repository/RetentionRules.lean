import Mathlib.Data.Finset.Card
import Mathlib.Tactic.NormNum
import Mapache.Lib.Months
import Mapache.Repository.Retention

/-!
# Applying the retention rules

`apply_retention_rules` of `repository/retention.rs` with all of its rules, the dates and times of
`chrono` that it computes with, and what it does where they run out of range: a result `none` is a
panic. Integer arithmetic is that of a release build.

The rules keep what one of them keeps, and `keep_min` fills this up with the newest snapshots
(`keepMin_exact`).
-/

set_option autoImplicit false

namespace Mapache

open Lib

/-! ## Dates and points in time -/

def nanosPerMinute : Int := 60 * nanosPerSecond

def nanosPerHour : Int := 3600 * nanosPerSecond

/-- The first year of `NaiveDate`. -/
def minYear : Int := -262143

/-- The last year of `NaiveDate`. -/
def maxYear : Int := 262142

/-- `NaiveDate::MIN`. -/
def minDate : Int := yearStart minYear

/-- `NaiveDate::MAX`. -/
def maxDate : Int := yearStart (maxYear + 1) - 1

/-- The day numbers of a `NaiveDate`. -/
def DateInRange (date : Int) : Prop := minDate ≤ date ∧ date ≤ maxDate

/-- The points in time of a `DateTime`. -/
def InRange (t : Int) : Prop := minDate * nanosPerDay ≤ t ∧ t < (maxDate + 1) * nanosPerDay

instance (date : Int) : Decidable (DateInRange date) := inferInstanceAs (Decidable (_ ∧ _))

instance (t : Int) : Decidable (InRange t) := inferInstanceAs (Decidable (_ ∧ _))

/-- The number with the low bits of another one: a cast with `as`, and what wraps around. -/
def signed (bits : Nat) (n : Int) : Int := Int.bmod n (2 ^ bits)

/-- `NaiveDate::from_ymd_opt`. -/
def fromYmdOpt (year month day : Int) : Option Int :=
  if (minYear ≤ year ∧ year ≤ maxYear) ∧ (1 ≤ month ∧ month ≤ 12) ∧
      1 ≤ day ∧ day ≤ daysInMonth year month then
    some (monthStart year month + (day - 1))
  else none

def withYear (date year : Int) : Option Int := fromYmdOpt year (monthOf date) (dayOfMonth date)

def withMonth (date month : Int) : Option Int := fromYmdOpt (yearOf date) month (dayOfMonth date)

def withDay (date day : Int) : Option Int := fromYmdOpt (yearOf date) (monthOf date) day

/-- A duration of so many units, in nanoseconds: at most `i64::MAX` milliseconds. -/
def duration (unit count : Int) : Option Int :=
  if |unit * count| ≤ (2 ^ 63 - 1) * 1000000 then some (unit * count) else none

/-- `NaiveDate - Duration`. -/
def subDate (date delta : Int) : Option Int :=
  if DateInRange (date - delta.tdiv nanosPerDay) then some (date - delta.tdiv nanosPerDay) else none

/-- `DateTime - Duration`. -/
def subTime (t delta : Int) : Option Int := if InRange (t - delta) then some (t - delta) else none

namespace Zone

/-- `from_local_datetime`: the points in time that have the local time, the first one first, if they
can be represented. -/
def fromLocal (zone : Zone) (naive : Int) : List Int :=
  let found := (zone.offsets.filter fun offset =>
    decide (zone.offset (naive - offset * nanosPerSecond) = offset)).map fun offset =>
      naive - offset * nanosPerSecond
  if ∀ t ∈ found, InRange t then found else []

/-- The start of a date, with what happens where it is skipped or out of range. -/
def startOfDate (zone : Zone) (date : Int) : Int :=
  let naive := date * nanosPerDay
  ((zone.fromLocal naive).head?).getD (((zone.fromLocal (naive + nanosPerHour)).head?).getD naive)

/-- `single`: the only point in time that has the local time. -/
def single (zone : Zone) (naive : Int) : Option Int :=
  match zone.fromLocal naive with
  | [t] => some t
  | _ => none

/-- `with_minute(0)`. -/
def zeroMinute (zone : Zone) (t : Int) : Option Int :=
  zone.single (zone.naiveLocal t - zone.naiveLocal t / nanosPerMinute % 60 * nanosPerMinute)

/-- `with_second(0)`. The nanoseconds stay. -/
def zeroSecond (zone : Zone) (t : Int) : Option Int :=
  zone.single (zone.naiveLocal t - zone.naiveLocal t / nanosPerSecond % 60 * nanosPerSecond)

/-- `hour`, of the local time. -/
def hour (zone : Zone) (t : Int) : Int := zone.naiveLocal t / nanosPerHour % 24

end Zone

/-! ## The cutoffs -/

section Cutoffs

variable (zone : Zone) (now : Int) (n : Nat)

/-- The cutoff of `KeepYearly(n)`: 1 January, `n - 1` years ago. -/
def yearlyCutoff : Int :=
  let targetYear := signed 32 (yearOf (zone.dateNaive now) - signed 32 (n - 1))
  match fromYmdOpt targetYear 1 1 with
  | some date => zone.startOfDate date
  | none => now

/-- A round of the loop of `KeepMonthly`. -/
def monthBack (targetDate : Int) : Option Int :=
  if monthOf targetDate = 1 then
    (withYear targetDate (yearOf targetDate - 1)).bind fun date => withMonth date 12
  else withMonth targetDate (monthOf targetDate - 1)

/-- The loop of `KeepMonthly`. -/
def monthsBack : Nat → Int → Option Int
  | 0, targetDate => some targetDate
  | rounds + 1, targetDate => (monthBack targetDate).bind (monthsBack rounds)

/-- The cutoff of `KeepMonthly(n)`: the first of the month, `n - 1` months ago. -/
def monthlyCutoff : Int :=
  match (withDay (zone.dateNaive now) 1).bind (monthsBack (n - 1)) with
  | some date => zone.startOfDate date
  | none => now

/-- The cutoff of `KeepWeekly(n)`: the Monday of the week `n - 1` weeks ago. -/
def weeklyCutoff : Option Int := do
  let fromMonday ← duration nanosPerDay (daysFromMonday (zone.dateNaive now))
  let currentMonday ← subDate (zone.dateNaive now) fromMonday
  let weeks ← duration (7 * nanosPerDay) (signed 64 (n - 1))
  let targetMonday ← subDate currentMonday weeks
  pure (zone.startOfDate targetMonday)

/-- The cutoff of `KeepDaily(n)`: the start of the current day, and from there 24 hours back `n - 1`
times. -/
def dailyCutoff : Option Int := do
  let days ← duration nanosPerDay (signed 64 (n - 1))
  subTime (zone.startOfDate (zone.dateNaive now)) days

/-- The truncation of the current time by `KeepHourly`. -/
def truncatedNow : Int := ((zone.zeroMinute now).bind zone.zeroSecond).getD now

/-- The cutoff of `KeepHourly(n)`. -/
def hourlyCutoff : Option Int := do
  let hours ← duration nanosPerHour (signed 64 (n - 1))
  subTime (truncatedNow zone now) hours

end Cutoffs

/-! ## The rules -/

/-- The part of a snapshot that the rules read. -/
structure TaggedEntry extends SnapshotEntry where
  tags : List String

/-- `EMPTY_TAG_MARK`. -/
def emptyTagMark : String := "[]"

/-- `has_tags`. -/
def hasTags (e : TaggedEntry) (tags : List String) : Bool :=
  (tags.contains emptyTagMark && e.tags.isEmpty) || e.tags.any fun tag => tags.contains tag

/-- `RetentionRule`. -/
inductive RetentionRule where
  | keepLast (n : Nat)
  | keepWithin (duration : Int)
  | keepYearly (n : Nat)
  | keepMonthly (n : Nat)
  | keepWeekly (n : Nat)
  | keepDaily (n : Nat)
  | keepHourly (n : Nat)
  | keepTags (tags : List String)

section Keys

variable (zone : Zone) (e : SnapshotEntry)

def yearKey : Int := yearOf (zone.dateNaive e.timestamp)

def monthKey : Int × Int :=
  (yearOf (zone.dateNaive e.timestamp), monthOf (zone.dateNaive e.timestamp))

def dayKey : Int := zone.dateNaive e.timestamp

def hourKey : Int × Int := (zone.dateNaive e.timestamp, zone.hour e.timestamp)

end Keys

section Apply

variable (zone : Zone) (snapshotsSorted : List TaggedEntry) (now : Int)

/-- The IDs of the snapshots. -/
def idsOf (l : List TaggedEntry) : Finset ID := (l.map fun e => e.id).toFinset

/-- The snapshots that a period rule sees. -/
def snapshotEntries (l : List TaggedEntry) : List SnapshotEntry := l.map TaggedEntry.toSnapshotEntry

/-- What a rule keeps. -/
def RetentionRule.idsToKeep : RetentionRule → Option (Finset ID)
  | keepLast n => some (idsOf (snapshotsSorted.reverse.take n))
  | keepWithin duration =>
    (subTime now duration).map fun cutoffTime =>
      idsOf (snapshotsSorted.filter fun e => cutoffTime ≤ e.timestamp)
  | keepYearly n =>
    some (keepLatestPerPeriod (snapshotEntries snapshotsSorted) (yearKey zone)
      (yearlyCutoff zone now n))
  | keepMonthly n =>
    some (keepLatestPerPeriod (snapshotEntries snapshotsSorted) (monthKey zone)
      (monthlyCutoff zone now n))
  | keepWeekly n =>
    (weeklyCutoff zone now n).map
      (keepLatestPerPeriod (snapshotEntries snapshotsSorted) (weekKey zone))
  | keepDaily n =>
    (dailyCutoff zone now n).map
      (keepLatestPerPeriod (snapshotEntries snapshotsSorted) (dayKey zone))
  | keepHourly n =>
    (hourlyCutoff zone now n).map
      (keepLatestPerPeriod (snapshotEntries snapshotsSorted) (hourKey zone))
  | keepTags tags => some (idsOf (snapshotsSorted.filter fun e => hasTags e tags))

/-- The loop that fills up to `target`, over the snapshots from the newest on. -/
def fillLoop (target : Nat) : List TaggedEntry → Finset ID → Finset ID
  | [], kept => kept
  | e :: es, kept => if target ≤ kept.card then kept else fillLoop target es (insert e.id kept)

/-- The union of what the rules keep. -/
def unionOfRules (rules : List RetentionRule) : Option (Finset ID) :=
  rules.foldlM (fun kept rule => (rule.idsToKeep zone snapshotsSorted now).map fun ids => kept ∪ ids) ∅

/-- `apply_retention_rules`. -/
def applyRetentionRules (rules : List RetentionRule) (keepMin : Option Nat) : Option (Finset ID) :=
  if DateInRange (zone.dateNaive now) then
    (unionOfRules zone snapshotsSorted now rules).map fun kept =>
      match keepMin with
      | none => kept
      | some least => fillLoop (min least snapshotsSorted.length) snapshotsSorted.reverse kept
  else none

end Apply

/-! ## The union of the rules -/

section Union

variable {zone : Zone} {l es : List TaggedEntry} {now : Int} {rules rules' : List RetentionRule}
  {rule : RetentionRule} {kept ids : Finset ID} {id : ID}

theorem mem_idsOf : id ∈ idsOf l ↔ ∃ e ∈ l, e.id = id := by
  rw [idsOf, List.mem_toFinset, List.mem_map]

theorem idsOf_mono (h : es ⊆ l) : idsOf es ⊆ idsOf l := by
  intro id hid
  obtain ⟨e, he, rfl⟩ := mem_idsOf.mp hid
  exact mem_idsOf.mpr ⟨e, h he, rfl⟩

theorem keepLatestPerPeriod_subset {κ : Type} [DecidableEq κ] {key : SnapshotEntry → κ}
    {cutOff : Int} :
    keepLatestPerPeriod (snapshotEntries l) key cutOff ⊆ idsOf l := by
  intro id hid
  obtain ⟨e, he, rfl⟩ := mem_keepLatestPerPeriod.mp hid
  obtain ⟨e', he', rfl⟩ := List.mem_map.mp he.mem
  exact mem_idsOf.mpr ⟨e', he', rfl⟩

/-- A rule keeps snapshots of the list only. -/
theorem idsToKeep_subset (h : rule.idsToKeep zone l now = some ids) : ids ⊆ idsOf l := by
  cases rule with
  | keepLast n =>
    cases h
    exact idsOf_mono fun e he => List.mem_reverse.mp (List.mem_of_mem_take he)
  | keepWithin duration =>
    obtain ⟨cutoff, -, rfl⟩ := Option.map_eq_some_iff.mp h
    exact idsOf_mono fun e he => List.mem_of_mem_filter he
  | keepYearly | keepMonthly =>
    cases h
    exact keepLatestPerPeriod_subset
  | keepWeekly | keepDaily | keepHourly =>
    obtain ⟨cutoff, -, rfl⟩ := Option.map_eq_some_iff.mp h
    exact keepLatestPerPeriod_subset
  | keepTags tags =>
    cases h
    exact idsOf_mono fun e he => List.mem_of_mem_filter he

/-- Some rule keeps the snapshot. -/
def KeptByRules (zone : Zone) (l : List TaggedEntry) (now : Int) (rules : List RetentionRule)
    (id : ID) :
    Prop :=
  ∃ rule ∈ rules, ∃ ids, rule.idsToKeep zone l now = some ids ∧ id ∈ ids

theorem mem_of_foldlM {start : Finset ID}
    (h : rules.foldlM (fun kept rule => (rule.idsToKeep zone l now).map fun ids => kept ∪ ids) start =
      some kept) : id ∈ kept ↔ id ∈ start ∨ KeptByRules zone l now rules id := by
  induction rules generalizing start with
  | nil =>
    cases h
    exact ⟨Or.inl, fun h => h.resolve_right fun ⟨_, hmem, _⟩ => List.not_mem_nil hmem⟩
  | cons rule rules ih =>
    rw [List.foldlM_cons, Option.bind_eq_bind, Option.bind_eq_some_iff] at h
    obtain ⟨next, hnext, h⟩ := h
    obtain ⟨ids, hids, rfl⟩ := Option.map_eq_some_iff.mp hnext
    rw [ih h, Finset.mem_union, or_assoc]
    refine or_congr_right ⟨?_, ?_⟩
    · rintro (hid | ⟨rule', hmem, ids', hids', hid⟩)
      · exact ⟨rule, List.mem_cons_self, ids, hids, hid⟩
      · exact ⟨rule', List.mem_cons_of_mem _ hmem, ids', hids', hid⟩
    · rintro ⟨rule', hmem, ids', hids', hid⟩
      rcases List.mem_cons.mp hmem with rfl | hmem
      · rw [hids] at hids'
        cases hids'
        exact Or.inl hid
      · exact Or.inr ⟨rule', hmem, ids', hids', hid⟩

/-- The rules keep what one of them keeps. -/
theorem mem_unionOfRules (h : unionOfRules zone l now rules = some kept) :
    id ∈ kept ↔ KeptByRules zone l now rules id :=
  (mem_of_foldlM h).trans (or_iff_right (Finset.notMem_empty id))

/-- One rule alone. -/
theorem applyRetentionRules_single (hnow : DateInRange (zone.dateNaive now)) :
    applyRetentionRules zone l now [rule] none = rule.idsToKeep zone l now := by
  rw [applyRetentionRules, if_pos hnow, unionOfRules, List.foldlM_cons]
  cases rule.idsToKeep zone l now with
  | none => rfl
  | some ids => exact congrArg some (Finset.empty_union ids)

/-- The order of the rules does not matter. -/
theorem unionOfRules_perm (h : rules.Perm rules') :
    unionOfRules zone l now rules = unionOfRules zone l now rules' := by
  unfold unionOfRules
  generalize (∅ : Finset ID) = start
  induction h generalizing start with
  | nil => rfl
  | cons rule _ ih =>
    rw [List.foldlM_cons, List.foldlM_cons]
    exact congrArg _ (funext fun next => ih next)
  | swap rule rule' rules =>
    simp only [List.foldlM_cons]
    cases rule.idsToKeep zone l now with
    | none => cases rule'.idsToKeep zone l now <;> rfl
    | some ids =>
      cases rule'.idsToKeep zone l now with
      | none => rfl
      | some ids' =>
        simp only [Option.map_some, Option.bind_eq_bind, Option.bind_some]
        rw [Finset.union_right_comm]
  | trans _ _ ih ih' => exact (ih start).trans (ih' start)

end Union

/-! ## Where the rules panic -/

/-- `Duration` has the units. -/
def DurationInRange (unit count : Int) : Prop := |unit * count| ≤ (2 ^ 63 - 1) * 1000000

/-- What the rule subtracts from the current time or date is a duration, and the result can be
represented. The rules that compute their cutoff with fallible functions never panic. -/
def RetentionRule.InReach (zone : Zone) (now : Int) : RetentionRule → Prop
  | keepLast _ | keepYearly _ | keepMonthly _ | keepTags _ => True
  | keepWithin duration => InRange (now - duration)
  | keepWeekly n => DateInRange (mondayOf (zone.dateNaive now)) ∧
      DurationInRange (7 * nanosPerDay) (signed 64 (n - 1)) ∧
      DateInRange (mondayOf (zone.dateNaive now) - 7 * signed 64 (n - 1))
  | keepDaily n => DurationInRange nanosPerDay (signed 64 (n - 1)) ∧
      InRange (zone.startOfDate (zone.dateNaive now) - nanosPerDay * signed 64 (n - 1))
  | keepHourly n => DurationInRange nanosPerHour (signed 64 (n - 1)) ∧
      InRange (truncatedNow zone now - nanosPerHour * signed 64 (n - 1))

section Panics

variable {zone : Zone} {now t unit count : Int} {n : Nat} {l : List TaggedEntry}
  {rules : List RetentionRule} {rule : RetentionRule}

theorem exists_subTime_iff : (∃ cutoff, ((duration unit count).bind fun delta => subTime t delta) =
    some cutoff) ↔ DurationInRange unit count ∧ InRange (t - unit * count) := by
  constructor
  · rintro ⟨cutoff, h⟩
    obtain ⟨delta, hdelta, hsub⟩ := Option.bind_eq_some_iff.mp h
    obtain ⟨hrange, heq⟩ := Option.ite_none_right_eq_some.mp hdelta
    cases heq
    exact ⟨hrange, (Option.ite_none_right_eq_some.mp hsub).1⟩
  · rintro ⟨hrange, hcut⟩
    refine ⟨t - unit * count, ?_⟩
    unfold DurationInRange at hrange
    rw [duration, if_pos hrange, Option.bind_some, subTime, if_pos hcut]

/-- The way back to the Monday is a duration. -/
theorem duration_daysFromMonday (date : Int) :
    duration nanosPerDay (daysFromMonday date) = some (nanosPerDay * daysFromMonday date) := by
  apply if_pos
  apply abs_le.mpr
  unfold nanosPerDay nanosPerSecond daysFromMonday
  constructor <;> norm_num <;> omega

theorem exists_weeklyCutoff_iff : (∃ cutoff, weeklyCutoff zone now n = some cutoff) ↔
    (RetentionRule.keepWeekly n).InReach zone now := by
  have hday : nanosPerDay ≠ 0 := by decide
  have hweeks : ∀ count : Int, (7 * nanosPerDay * count).tdiv nanosPerDay = 7 * count := by
    intro count
    rw [mul_comm 7, mul_assoc, Int.mul_tdiv_cancel_left _ hday]
  have hcurrent : zone.dateNaive now - daysFromMonday (zone.dateNaive now) =
      mondayOf (zone.dateNaive now) := rfl
  unfold weeklyCutoff
  rw [duration_daysFromMonday]
  simp only [Option.bind_eq_bind, Option.bind_some, subDate, duration, Option.pure_def,
    Int.mul_tdiv_cancel_left _ hday, hcurrent]
  unfold RetentionRule.InReach DurationInRange
  constructor
  · rintro ⟨cutoff, h⟩
    obtain ⟨monday, hmon, h⟩ := Option.bind_eq_some_iff.mp h
    obtain ⟨hmonday, heq⟩ := Option.ite_none_right_eq_some.mp hmon
    cases heq
    obtain ⟨weeks, hdur, h⟩ := Option.bind_eq_some_iff.mp h
    obtain ⟨hduration, heq⟩ := Option.ite_none_right_eq_some.mp hdur
    cases heq
    obtain ⟨target, htarget, -⟩ := Option.bind_eq_some_iff.mp h
    rw [hweeks] at htarget
    exact ⟨hmonday, hduration, (Option.ite_none_right_eq_some.mp htarget).1⟩
  · rintro ⟨hmon, hdur, htarget⟩
    rw [if_pos hmon, Option.bind_some, if_pos hdur, Option.bind_some, hweeks, if_pos htarget]
    exact ⟨_, rfl⟩

/-- A rule answers if and only if it is in reach. -/
theorem exists_idsToKeep_iff : (∃ ids, rule.idsToKeep zone l now = some ids) ↔
    rule.InReach zone now := by
  have hmap : ∀ (cutoff : Option Int) (keep : Int → Finset ID),
      (∃ ids, cutoff.map keep = some ids) ↔ ∃ t, cutoff = some t := by
    intro cutoff keep
    cases cutoff with
    | none => simp
    | some t => simp
  cases rule with
  | keepLast n | keepYearly n | keepMonthly n | keepTags tags => exact iff_of_true ⟨_, rfl⟩ trivial
  | keepWithin duration =>
    rw [RetentionRule.idsToKeep, hmap, RetentionRule.InReach, subTime]
    constructor
    · rintro ⟨cutoff, h⟩
      exact (Option.ite_none_right_eq_some.mp h).1
    · intro h
      exact ⟨_, if_pos h⟩
  | keepWeekly n =>
    rw [RetentionRule.idsToKeep, hmap]
    exact exists_weeklyCutoff_iff
  | keepDaily n =>
    rw [RetentionRule.idsToKeep, hmap]
    exact exists_subTime_iff
  | keepHourly n =>
    rw [RetentionRule.idsToKeep, hmap]
    exact exists_subTime_iff

theorem exists_foldlM_iff {start : Finset ID} : (∃ kept, rules.foldlM (fun kept rule =>
      (rule.idsToKeep zone l now).map fun ids => kept ∪ ids) start = some kept) ↔
    ∀ rule ∈ rules, rule.InReach zone now := by
  induction rules generalizing start with
  | nil => exact iff_of_true ⟨_, rfl⟩ (List.forall_mem_nil _)
  | cons rule rules ih =>
    rw [List.forall_mem_cons, ← exists_idsToKeep_iff (l := l), List.foldlM_cons]
    cases hids : rule.idsToKeep zone l now with
    | none => simp
    | some ids => simpa using ih

end Panics

/-! ## Filling up -/

section Fill

variable {target : Nat} {es : List TaggedEntry} {kept : Finset ID}

/-- **The loop that fills up** takes snapshots from the front of the list, until there are enough.
-/
theorem fillLoop_spec (target : Nat) (es : List TaggedEntry) (kept : Finset ID) :
    ∃ added rest, es = added ++ rest ∧ fillLoop target es kept = kept ∪ idsOf added ∧
      (fillLoop target es kept).card ≤ max kept.card target ∧
      (rest = [] ∨ target ≤ (fillLoop target es kept).card) := by
  induction es generalizing kept with
  | nil => exact ⟨[], [], rfl, (Finset.union_empty kept).symm, le_max_left _ _, Or.inl rfl⟩
  | cons e es ih =>
    rw [fillLoop]
    split
    · rename_i henough
      exact ⟨[], e :: es, rfl, (Finset.union_empty kept).symm, le_max_left _ _, Or.inr henough⟩
    · rename_i hfew
      obtain ⟨added, rest, hes, hfill, hcard, hrest⟩ := ih (insert e.id kept)
      have hinsert := Finset.card_insert_le e.id kept
      refine ⟨e :: added, rest, by rw [hes, List.cons_append], ?_, by omega, hrest⟩
      rw [hfill, idsOf, idsOf, List.map_cons, List.toFinset_cons, Finset.insert_union,
        Finset.union_insert]

end Fill

section KeepMin

variable {l : List TaggedEntry}

theorem card_idsOf (hids : (l.map fun e => e.id).Nodup) : (idsOf l).card = l.length := by
  rw [idsOf, List.toFinset_card_of_nodup hids, List.length_map]

/-- What `keep_min` makes of the snapshots that the rules keep. -/
theorem fill_exact (hsorted : l.Pairwise fun a b => a.timestamp ≤ b.timestamp)
    (hids : (l.map fun e => e.id).Nodup) (least : Nat) (kept : Finset ID) :
    let result := fillLoop (min least l.length) l.reverse kept
    kept ⊆ result ∧ result.card = max kept.card (min least l.length) ∧
      ∀ id ∈ result, id ∉ kept → ∃ e ∈ l, e.id = id ∧
        ∀ e' ∈ l, e'.id ∉ result → e'.timestamp ≤ e.timestamp := by
  dsimp only
  obtain ⟨added, rest, hes, hfill, hcard, hrest⟩ := fillLoop_spec (min least l.length) l.reverse kept
  have hkept : kept ⊆ fillLoop (min least l.length) l.reverse kept := by
    rw [hfill]
    exact Finset.subset_union_left
  refine ⟨hkept, ?_, fun id hid hnew => ?_⟩
  · have hle := Finset.card_le_card hkept
    have henough : min least l.length ≤ (fillLoop (min least l.length) l.reverse kept).card := by
      rcases hrest with rfl | henough
      · -- all of them are kept
        rw [List.append_nil] at hes
        have hall : idsOf l ⊆ fillLoop (min least l.length) l.reverse kept := by
          rw [hfill, ← hes]
          refine (idsOf_mono fun e he => ?_).trans Finset.subset_union_right
          exact List.mem_reverse.mpr he
        have hlen := Finset.card_le_card hall
        rw [card_idsOf hids] at hlen
        exact (min_le_right _ _).trans hlen
      · exact henough
    omega
  · rw [hfill] at hid
    obtain ⟨e, he, heid⟩ := mem_idsOf.mp ((Finset.mem_union.mp hid).resolve_left hnew)
    have hmem : e ∈ l := by
      rw [← List.mem_reverse, hes]
      exact List.mem_append_left _ he
    refine ⟨e, hmem, heid, fun e' he' hout => ?_⟩
    -- what is left out comes after what is added, from the newest on
    have hlater : e' ∈ rest := by
      rw [← List.mem_reverse, hes, List.mem_append] at he'
      refine he'.resolve_left fun hadded => hout ?_
      rw [hfill]
      exact Finset.mem_union_right _ (mem_idsOf.mpr ⟨e', hadded, rfl⟩)
    have hpair : l.reverse.Pairwise fun a b =>
        b.timestamp ≤ a.timestamp := List.pairwise_reverse.mpr hsorted
    rw [hes] at hpair
    exact (List.pairwise_append.mp hpair).2.2 e he e' hlater

/-- **`keep_min` adds the newest snapshots only**, as many as are missing, and the order of the
rules does not matter. There is a result if and only if the current date can be represented and every
rule is in reach. -/
theorem keepMin_exact (zone : Zone) (now : Int) (rules : List RetentionRule) (keepMin : Option Nat)
    (hsorted : l.Pairwise fun a b => a.timestamp ≤ b.timestamp)
    (hids : (l.map fun e => e.id).Nodup) :
    ((∃ result, applyRetentionRules zone l now rules keepMin = some result) ↔
      DateInRange (zone.dateNaive now) ∧ ∀ rule ∈ rules, rule.InReach zone now) ∧
    (∀ result, applyRetentionRules zone l now rules keepMin = some result →
      ∃ kept, applyRetentionRules zone l now rules none = some kept ∧
        (∀ id, id ∈ kept ↔ KeptByRules zone l now rules id) ∧ kept ⊆ result ∧
        result.card = max kept.card (min (keepMin.getD 0) l.length) ∧
        ∀ id ∈ result, id ∉ kept → ∃ e ∈ l, e.id = id ∧
          ∀ e' ∈ l, e'.id ∉ result → e'.timestamp ≤ e.timestamp) ∧
    ∀ rules', rules.Perm rules' → applyRetentionRules zone l now rules' keepMin =
      applyRetentionRules zone l now rules keepMin := by
  refine ⟨?_, fun result hresult => ?_, fun rules' hperm => ?_⟩
  · unfold applyRetentionRules
    by_cases hdate : DateInRange (zone.dateNaive now)
    · rw [if_pos hdate, and_iff_right hdate, ← @exists_foldlM_iff _ _ l rules ∅]
      unfold unionOfRules
      simp
    · rw [if_neg hdate]
      exact iff_of_false (fun ⟨_, h⟩ => by cases h) fun h => hdate h.1
  · unfold applyRetentionRules at hresult ⊢
    split at hresult
    · rename_i hdate
      rw [if_pos hdate]
      -- what the rules keep, filled up with the newest of the others
      obtain ⟨union, hunion, rfl⟩ := Option.map_eq_some_iff.mp hresult
      refine ⟨union, by rw [hunion, Option.map_some], fun id => mem_unionOfRules hunion, ?_⟩
      cases keepMin with
      | none =>
        refine ⟨Finset.Subset.refl _, ?_, fun id hid hnew => absurd hid hnew⟩
        rw [Option.getD_none, Nat.zero_min, Nat.max_zero]
      | some least => exact fill_exact hsorted hids least union
    · cases hresult
  · unfold applyRetentionRules
    rw [unionOfRules_perm hperm]

end KeepMin

section Sample

/-- Three snapshots of May 2025, one of them with a tag. -/
def taggedSnapshots : List TaggedEntry :=
  [⟨⟨1, 20200 * nanosPerDay⟩, ["archive"]⟩, ⟨⟨2, 20200 * nanosPerDay + 1⟩, []⟩,
    ⟨⟨3, 20201 * nanosPerDay⟩, []⟩]

/-- The tagged snapshot is kept by the rules, and the newest one is added. -/
theorem keepMin_tagged : ∃ kept result,
    applyRetentionRules (.fixed 0) taggedSnapshots (20202 * nanosPerDay)
      [.keepTags ["archive"], .keepWeekly 1] none = some kept ∧
    applyRetentionRules (.fixed 0) taggedSnapshots (20202 * nanosPerDay)
      [.keepTags ["archive"], .keepWeekly 1] (some 3) = some result ∧
    kept ⊆ result ∧ result.card = max kept.card 3 ∧
    (∀ id ∈ result, id ∉ kept → ∃ e ∈ taggedSnapshots, e.id = id ∧
      ∀ e' ∈ taggedSnapshots, e'.id ∉ result → e'.timestamp ≤ e.timestamp) ∧
    applyRetentionRules (.fixed 0) taggedSnapshots (20202 * nanosPerDay)
      [.keepWeekly 1, .keepTags ["archive"]] (some 3) = some result := by
  obtain ⟨hsome, hexact, hperm⟩ := keepMin_exact (.fixed 0) (20202 * nanosPerDay)
    [.keepTags ["archive"], .keepWeekly 1] (some 3) (l := taggedSnapshots) (by decide) (by decide)
  obtain ⟨result, hresult⟩ := hsome.mpr ⟨by decide +kernel, by
    intro rule hrule
    rcases List.mem_pair.mp hrule with rfl | rfl
    · trivial
    · unfold RetentionRule.InReach DurationInRange
      decide +kernel⟩
  obtain ⟨kept, hkept, -, hsub, hcard, hnewest⟩ := hexact result hresult
  exact ⟨kept, result, hkept, hresult, hsub, hcard, hnewest,
    (hperm _ (.swap _ _ [])).trans hresult⟩

example : applyRetentionRules (.fixed 0) taggedSnapshots (20202 * nanosPerDay)
    [.keepTags ["archive"]] (some 2) = some {1, 3} := by decide +kernel

end Sample

end Mapache
