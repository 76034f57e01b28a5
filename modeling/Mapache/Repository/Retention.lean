import Mathlib.Data.Finset.Image
import Mapache.Common
import Mapache.Lib.Calendar
import Mapache.Lib.Table

/-!
# Retention rules

`keep_latest_per_period` and the rule `KeepWeekly` of `repository/retention.rs`. A point in time is
a number of nanoseconds since 1970-01-01 UTC, and a time zone says which offset is in force at it.

`keep_latest_per_period` keeps the last snapshot of every period (`mem_keepLatestPerPeriod`). The
period of `KeepWeekly` is a calendar year with an ISO week number, which around New Year is not a
week; the rule keeps one snapshot per week if and only if these pairs tell the weeks of the
snapshots apart (`keepsWeeks_keepWeekly_iff`).
-/

set_option autoImplicit false

namespace Mapache

open Lib

/-- A snapshot with its ID and the time it was made. -/
structure SnapshotEntry where
  id : ID
  timestamp : Int

/-! ## Local times -/

def nanosPerSecond : Int := 1000000000

def nanosPerDay : Int := 86400 * nanosPerSecond

/-- A time zone: the offset from UTC in force at a point in time, in seconds, and the offsets that
it ever has, the largest first. -/
structure Zone where
  offset : Int → Int
  offsets : List Int
  mem : ∀ t, offset t ∈ offsets
  sorted : offsets.Pairwise fun a b => b < a

/-- A zone of fixed offset. -/
def Zone.fixed (offset : Int) : Zone where
  offset := fun _ => offset
  offsets := [offset]
  mem := fun _ => List.mem_singleton_self _
  sorted := List.pairwise_singleton _ _

namespace Zone

/-- The local time at a point in time, as nanoseconds since 1970-01-01 local time. -/
def naiveLocal (zone : Zone) (t : Int) : Int := t + zone.offset t * nanosPerSecond

/-- `date_naive`, as a day number. -/
def dateNaive (zone : Zone) (t : Int) : Int := zone.naiveLocal t / nanosPerDay

/-- `from_local_datetime` and `earliest`: the first point in time that has the local time. -/
def earliest (zone : Zone) (naive : Int) : Option Int :=
  (zone.offsets.find? fun offset =>
    decide (zone.offset (naive - offset * nanosPerSecond) = offset)).map fun offset =>
      naive - offset * nanosPerSecond

/-- The start of a day, or one hour later where that is skipped. -/
def startOfDay (zone : Zone) (day : Int) : Int :=
  let naive := day * nanosPerDay
  match zone.earliest naive with
  | some t => t
  | none => (zone.earliest (naive + 3600 * nanosPerSecond)).getD naive

@[simp] theorem naiveLocal_fixed (offset t : Int) :
    (fixed offset).naiveLocal t = t + offset * nanosPerSecond := rfl

theorem startOfDay_fixed (offset day : Int) :
    (fixed offset).startOfDay day = day * nanosPerDay - offset * nanosPerSecond := by
  simp [startOfDay, earliest, fixed]

/-- The days of a zone of fixed offset start at midnight. -/
theorem startOfDay_le_iff (offset day t : Int) :
    (fixed offset).startOfDay day ≤ t ↔ day ≤ (fixed offset).dateNaive t := by
  rw [startOfDay_fixed, dateNaive, naiveLocal_fixed, Int.le_ediv_iff_mul_le (by decide)]
  omega

theorem dateNaive_mono (offset : Int) {t t' : Int} (h : t ≤ t') :
    (fixed offset).dateNaive t ≤ (fixed offset).dateNaive t' := by
  rw [dateNaive, dateNaive, naiveLocal_fixed, naiveLocal_fixed]
  exact Int.ediv_le_ediv (by decide) (by omega)

end Zone

/-! ## The rules -/

/-- `keep_latest_per_period`. -/
def keepLatestPerPeriod {κ : Type} [DecidableEq κ] (snapshotsSorted : List SnapshotEntry)
    (keyExtractor : SnapshotEntry → κ) (cutOff : Int) : Finset ID :=
  let keptPeriods := snapshotsSorted.reverse.foldl (fun kept entry =>
    if cutOff ≤ entry.timestamp ∧ kept.lookup (keyExtractor entry) = none then
      kept.insert (keyExtractor entry) entry.id
    else kept) (∅ : Table κ ID)
  ((Table.toList keptPeriods).map Prod.snd).toFinset

/-- The calendar year and the ISO week number of a snapshot, the period of `KeepWeekly`. -/
def weekKey (zone : Zone) (entry : SnapshotEntry) : Int × Int :=
  (yearOf (zone.dateNaive entry.timestamp), isoWeek (zone.dateNaive entry.timestamp))

/-- The first day that `KeepWeekly(n)` keeps: the Monday `n - 1` weeks before the current week. -/
def targetMonday (zone : Zone) (now : Int) (n : Nat) : Int :=
  mondayOf (zone.dateNaive now) - 7 * (n - 1)

/-- `KeepWeekly(n)`, where the dates are in the range of `NaiveDate`. -/
def keepWeekly (zone : Zone) (snapshotsSorted : List SnapshotEntry) (now : Int) (n : Nat) :
    Finset ID :=
  keepLatestPerPeriod snapshotsSorted (weekKey zone) (zone.startOfDay (targetMonday zone now n))

/-! ## The latest of every period -/

/-- The entry is admitted, and no admitted entry after it has its key. -/
def LatestOf {α κ : Type} (admitted : α → Prop) (key : α → κ) (l : List α) (x : α) : Prop :=
  ∃ before after, l = before ++ x :: after ∧ admitted x ∧
    ∀ y ∈ after, admitted y → key y ≠ key x

section Latest

variable {α κ : Type} {admitted : α → Prop} {key : α → κ} {l : List α} {x y : α}

theorem LatestOf.mem (h : LatestOf admitted key l x) : x ∈ l := by
  obtain ⟨before, after, rfl, -⟩ := h
  exact List.mem_append_right _ List.mem_cons_self

theorem latestOf_cons : LatestOf admitted key (y :: l) x ↔
    (x = y ∧ admitted y ∧ ∀ z ∈ l, admitted z → key z ≠ key y) ∨ LatestOf admitted key l x := by
  constructor
  · rintro ⟨before, after, heq, hx, hafter⟩
    cases before with
    | nil =>
      cases heq
      exact Or.inl ⟨rfl, hx, hafter⟩
    | cons z before =>
      cases heq
      exact Or.inr ⟨before, after, rfl, hx, hafter⟩
  · rintro (⟨rfl, hx, hafter⟩ | ⟨before, after, rfl, hx, hafter⟩)
    · exact ⟨[], l, rfl, hx, hafter⟩
    · exact ⟨y :: before, after, rfl, hx, hafter⟩

/-- Every admitted entry has a latest one of its key, which does not come before it. -/
theorem exists_latestOf (admitted : α → Prop) (key : α → κ) {R : α → α → Prop}
    (hrefl : ∀ x, R x x) (hsorted : l.Pairwise R) (hx : x ∈ l)
    (hadm : admitted x) : ∃ y, LatestOf admitted key l y ∧ key y = key x ∧ R x y := by
  induction l generalizing x with
  | nil => cases hx
  | cons z l ih =>
    rw [List.pairwise_cons] at hsorted
    rcases List.mem_cons.mp hx with rfl | hmem
    · by_cases hmore : ∃ w ∈ l, admitted w ∧ key w = key x
      · obtain ⟨w, hw, hadmw, hkey⟩ := hmore
        obtain ⟨y, hy, hkeyy, -⟩ := ih hsorted.2 hw hadmw
        exact ⟨y, latestOf_cons.mpr (Or.inr hy), hkeyy.trans hkey, hsorted.1 y hy.mem⟩
      · refine ⟨x, latestOf_cons.mpr (Or.inl ⟨rfl, hadm, fun w hw hadmw hkey => ?_⟩), rfl, hrefl x⟩
        exact hmore ⟨w, hw, hadmw, hkey⟩
    · obtain ⟨y, hy, hkey, hR⟩ := ih hsorted.2 hmem hadm
      exact ⟨y, latestOf_cons.mpr (Or.inr hy), hkey, hR⟩

/-- No admitted entry of its key comes after the latest one. -/
theorem LatestOf.le {R : α → α → Prop} (h : LatestOf admitted key l x) (hrefl : ∀ x, R x x)
    (hsorted : l.Pairwise R) (hy : y ∈ l) (hadm : admitted y) (hkey : key y = key x) : R y x := by
  obtain ⟨before, after, rfl, -, hafter⟩ := h
  rcases List.mem_append.mp hy with hbefore | hrest
  · exact (List.pairwise_append.mp hsorted).2.2 y hbefore x List.mem_cons_self
  · rcases List.mem_cons.mp hrest with rfl | hlater
    · exact hrefl _
    · exact absurd hkey (hafter y hlater hadm)

/-- The latest entries depend only on which admitted entries have the same key. -/
theorem LatestOf.congr {κ' : Type} {key' : α → κ'} (h : LatestOf admitted key l x)
    (hkeys : ∀ a ∈ l, ∀ b ∈ l, admitted a → admitted b → (key' a = key' b → key a = key b)) :
    LatestOf admitted key' l x := by
  obtain ⟨before, after, rfl, hx, hafter⟩ := h
  refine ⟨before, after, rfl, hx, fun y hy hadm heq => hafter y hy hadm ?_⟩
  exact hkeys y (List.mem_append_right _ (List.mem_cons_of_mem _ hy)) x
    (List.mem_append_right _ List.mem_cons_self) hadm hx heq

end Latest

section Keep

variable {κ : Type} [DecidableEq κ] {key : SnapshotEntry → κ} {cutOff : Int}

/-- The loop over the snapshots from the newest to the oldest has the latest one of each key. -/
theorem lookup_keptPeriods (l : List SnapshotEntry) (k : κ) (id : ID) :
    (l.reverse.foldl (fun kept entry =>
      if cutOff ≤ entry.timestamp ∧ kept.lookup (key entry) = none then
        kept.insert (key entry) entry.id
      else kept) (∅ : Table κ ID)).lookup k = some id ↔
    ∃ e, LatestOf (fun e => cutOff ≤ e.timestamp) key l e ∧ key e = k ∧ e.id = id := by
  rw [List.foldl_reverse]
  induction l generalizing k id with
  | nil =>
    constructor
    · intro h
      cases h
    · rintro ⟨e, ⟨before, after, heq, -⟩, -⟩
      cases before <;> cases heq
  | cons e l ih =>
    rw [List.foldr_cons]
    split
    · rename_i hnew
      obtain ⟨hadm, hnone⟩ := hnew
      -- no later snapshot has the key
      have hlast : ∀ x ∈ l, cutOff ≤ x.timestamp → key x ≠ key e := by
        intro x hx hadmx hkey
        obtain ⟨y, hy, hkeyy, -⟩ := exists_latestOf (fun e => cutOff ≤ e.timestamp) key
          (R := fun _ _ => True) (fun _ => trivial)
          (List.pairwise_of_forall fun _ _ => trivial) hx hadmx
        have hsome := (ih (key e) y.id).mpr ⟨y, hy, hkeyy.trans hkey, rfl⟩
        rw [hnone] at hsome
        cases hsome
      rw [Table.lookup_insert_eq_ite]
      split
      · rename_i hk
        constructor
        · intro h
          cases h
          exact ⟨e, latestOf_cons.mpr (Or.inl ⟨rfl, hadm, hlast⟩), hk.symm, rfl⟩
        · rintro ⟨x, hx, hkey, rfl⟩
          rcases latestOf_cons.mp hx with ⟨rfl, -⟩ | hlater
          · rfl
          · obtain ⟨before, after, rfl, hadmx, -⟩ := hlater
            exact absurd (hkey.trans hk)
              (hlast x (List.mem_append_right _ List.mem_cons_self) hadmx)
      · rename_i hk
        rw [ih]
        constructor
        · rintro ⟨x, hx, hkey, hid⟩
          exact ⟨x, latestOf_cons.mpr (Or.inr hx), hkey, hid⟩
        · rintro ⟨x, hx, hkey, hid⟩
          rcases latestOf_cons.mp hx with ⟨rfl, -⟩ | hlater
          · exact absurd hkey.symm hk
          · exact ⟨x, hlater, hkey, hid⟩
    · rename_i hold
      rw [ih]
      constructor
      · rintro ⟨x, hx, hkey, hid⟩
        exact ⟨x, latestOf_cons.mpr (Or.inr hx), hkey, hid⟩
      · rintro ⟨x, hx, hkey, hid⟩
        rcases latestOf_cons.mp hx with ⟨rfl, hadm, hlast⟩ | hlater
        · refine absurd ⟨hadm, Option.eq_none_iff_forall_not_mem.mpr fun id' hid' => ?_⟩ hold
          obtain ⟨y, hy, hkeyy, -⟩ := (ih _ id').mp hid'
          obtain ⟨before, after, rfl, hadmy, -⟩ := hy
          exact hlast y (List.mem_append_right _ List.mem_cons_self) hadmy hkeyy
        · exact ⟨x, hlater, hkey, hid⟩

/-- **What `keep_latest_per_period` keeps**: the latest snapshot of every period, among those that
are not older than the cutoff. -/
theorem mem_keepLatestPerPeriod {l : List SnapshotEntry} {id : ID} :
    id ∈ keepLatestPerPeriod l key cutOff ↔
      ∃ e, LatestOf (fun e => cutOff ≤ e.timestamp) key l e ∧ e.id = id := by
  rw [keepLatestPerPeriod, List.mem_toFinset, List.mem_map]
  constructor
  · rintro ⟨⟨k, id'⟩, hmem, rfl⟩
    obtain ⟨e, he, -, hid⟩ := (lookup_keptPeriods l k id').mp (Table.mem_toList.mp hmem)
    exact ⟨e, he, hid⟩
  · rintro ⟨e, he, hid⟩
    exact ⟨(key e, id), Table.mem_toList.mpr ((lookup_keptPeriods l _ id).mpr ⟨e, he, rfl, hid⟩), rfl⟩

end Keep

/-! ## One snapshot per week -/

/-- The week of a snapshot, as its Monday. -/
def weekOf (zone : Zone) (e : SnapshotEntry) : Int := mondayOf (zone.dateNaive e.timestamp)

/-- The week of the snapshot starts no earlier than `n - 1` weeks before the current one. -/
def InWeeks (zone : Zone) (now : Int) (n : Nat) (e : SnapshotEntry) : Prop :=
  targetMonday zone now n ≤ weekOf zone e

/-- The calendar year and the week number tell the weeks of the snapshots apart. -/
def KeysSeparate (zone : Zone) (l : List SnapshotEntry) (now : Int) (n : Nat) : Prop :=
  ∀ a ∈ l, ∀ b ∈ l, InWeeks zone now n a → InWeeks zone now n b →
    (weekKey zone a = weekKey zone b ↔ weekOf zone a = weekOf zone b)

section Weekly

variable {offset now : Int} {n : Nat} {l : List SnapshotEntry} {a b e : SnapshotEntry} {zone : Zone}

/-- A snapshot is not older than the cutoff if and only if its week starts early enough. -/
theorem cutoff_le_iff (offset now : Int) (n : Nat) (e : SnapshotEntry) :
    (Zone.fixed offset).startOfDay (targetMonday (.fixed offset) now n) ≤ e.timestamp ↔
      InWeeks (.fixed offset) now n e := by
  rw [Zone.startOfDay_le_iff]
  have hmod := mondayOf_mod ((Zone.fixed offset).dateNaive now)
  have hmod' := mondayOf_mod ((Zone.fixed offset).dateNaive e.timestamp)
  have hle := mondayOf_le ((Zone.fixed offset).dateNaive e.timestamp)
  unfold InWeeks targetMonday weekOf
  omega

/-- `KeepWeekly` keeps the latest snapshot of every pair of a calendar year and a week number. -/
theorem mem_keepWeekly {id : ID} : id ∈ keepWeekly (.fixed offset) l now n ↔
    ∃ e, LatestOf (InWeeks (.fixed offset) now n) (weekKey (.fixed offset)) l e ∧ e.id = id := by
  rw [keepWeekly, mem_keepLatestPerPeriod]
  simp only [cutoff_le_iff]

theorem weekOf_mono (h : a.timestamp ≤ b.timestamp) :
    weekOf (.fixed offset) a ≤ weekOf (.fixed offset) b :=
  mondayOf_mono (Zone.dateNaive_mono offset h)

/-- Two snapshots of one week have one key unless they lie on both sides of New Year. -/
theorem weekKey_eq_iff (hweek : weekOf zone a = weekOf zone b) : weekKey zone a = weekKey zone b ↔
    yearOf (zone.dateNaive a.timestamp) = yearOf (zone.dateNaive b.timestamp) :=
  ⟨congrArg Prod.fst, fun heq => Prod.ext heq (isoWeek_of_mondayOf hweek).2⟩

/-- What a weekly rule is to keep: the latest snapshot of every week, for the weeks that start no
earlier than `n - 1` weeks before the current one. -/
def KeepsWeeks (offset : Int) (l : List SnapshotEntry) (now : Int) (n : Nat) (kept : Finset ID) :
    Prop :=
  ∀ id, id ∈ kept ↔
    ∃ e, LatestOf (InWeeks (.fixed offset) now n) (weekOf (.fixed offset)) l e ∧ e.id = id

/-- Where the rule is exact, the latest snapshot of a key is the latest one of its week. -/
theorem KeepsWeeks.latestOf_iff (h : KeepsWeeks offset l now n (keepWeekly (.fixed offset) l now n))
    (hids : (l.map SnapshotEntry.id).Nodup) :
    LatestOf (InWeeks (.fixed offset) now n) (weekKey (.fixed offset)) l e ↔
      LatestOf (InWeeks (.fixed offset) now n) (weekOf (.fixed offset)) l e := by
  have hinj : ∀ x ∈ l, ∀ y ∈ l, x.id = y.id → x = y := fun x hx y hy =>
    List.inj_on_of_nodup_map hids hx hy
  constructor
  · intro he
    obtain ⟨x, hx, hid⟩ := (h e.id).mp (mem_keepWeekly.mpr ⟨e, he, rfl⟩)
    exact hinj x hx.mem e he.mem hid ▸ hx
  · intro he
    obtain ⟨x, hx, hid⟩ := mem_keepWeekly.mp ((h e.id).mpr ⟨e, he, rfl⟩)
    exact hinj x hx.mem e he.mem hid ▸ hx

/-- Where the rule is exact, no week has snapshots on both sides of New Year. -/
theorem KeepsWeeks.weekKey_eq (h : KeepsWeeks offset l now n (keepWeekly (.fixed offset) l now n))
    (hsorted : l.Pairwise fun a b => a.timestamp ≤ b.timestamp)
    (hids : (l.map SnapshotEntry.id).Nodup) (ha : a ∈ l) (hb : b ∈ l)
    (hadma : InWeeks (.fixed offset) now n a) (hadmb : InWeeks (.fixed offset) now n b)
    (hle : a.timestamp ≤ b.timestamp) (hweek : weekOf (.fixed offset) a = weekOf (.fixed offset) b) :
    weekKey (.fixed offset) a = weekKey (.fixed offset) b := by
  by_contra hne
  rw [weekKey_eq_iff hweek] at hne
  have hyear := yearOf_mono (Zone.dateNaive_mono offset hle)
  -- the latest snapshot with the key of the first one is older than the second one
  obtain ⟨u, hu, hkey, hau⟩ := exists_latestOf (InWeeks (.fixed offset) now n)
    (weekKey (.fixed offset)) (fun x => le_refl x.timestamp) hsorted ha hadma
  have hyearu : yearOf ((Zone.fixed offset).dateNaive u.timestamp) =
      yearOf ((Zone.fixed offset).dateNaive a.timestamp) := congrArg Prod.fst hkey
  have hub : (Zone.fixed offset).dateNaive u.timestamp ≤ (Zone.fixed offset).dateNaive
      b.timestamp := by
    by_contra hlt
    have hmono := yearOf_mono (le_of_not_ge hlt)
    omega
  have hweeku : weekOf (.fixed offset) u = weekOf (.fixed offset) a :=
    mondayOf_between hweek (Zone.dateNaive_mono offset hau) hub
  -- so it is not the latest one of its week
  have hlatest := (h.latestOf_iff hids).mp hu
  have hbu := hlatest.le (fun x => le_refl x.timestamp) hsorted hb hadmb (hweek.symm.trans hweeku.symm)
  have hmono := yearOf_mono (Zone.dateNaive_mono offset hbu)
  omega

/-- Where the rule is exact, a later snapshot with the same key is of the same week. -/
theorem KeepsWeeks.weekOf_eq (h : KeepsWeeks offset l now n (keepWeekly (.fixed offset) l now n))
    (hsorted : l.Pairwise fun a b => a.timestamp ≤ b.timestamp)
    (hids : (l.map SnapshotEntry.id).Nodup) (ha : a ∈ l) (hb : b ∈ l)
    (hadma : InWeeks (.fixed offset) now n a) (hadmb : InWeeks (.fixed offset) now n b)
    (hle : a.timestamp ≤ b.timestamp) (hkey : weekKey (.fixed offset) a = weekKey (.fixed offset) b) :
    weekOf (.fixed offset) a = weekOf (.fixed offset) b := by
  -- the latest snapshot of the week of the first one is the latest one of the key
  obtain ⟨u, hu, hweeku, hau⟩ := exists_latestOf (InWeeks (.fixed offset) now n)
    (weekOf (.fixed offset)) (fun x => le_refl x.timestamp) hsorted ha hadma
  have hlatest := (h.latestOf_iff hids).mpr hu
  have hadmu : InWeeks (.fixed offset) now n u := by
    unfold InWeeks
    rw [hweeku]
    exact hadma
  have hkeyu := h.weekKey_eq hsorted hids ha hu.mem hadma hadmu hau hweeku.symm
  have hbu := hlatest.le (fun x => le_refl x.timestamp) hsorted hb hadmb (hkey.symm.trans hkeyu)
  exact le_antisymm (weekOf_mono hle) (hweeku ▸ weekOf_mono hbu)

/-- For snapshots in the order of their times, with distinct IDs and in a zone of fixed offset, exactly
the latest snapshot of every week in range is kept if and only if the calendar year and the ISO week
number tell the weeks of these snapshots apart. -/
theorem keepsWeeks_keepWeekly_iff (hsorted : l.Pairwise fun a b => a.timestamp ≤ b.timestamp)
    (hids : (l.map SnapshotEntry.id).Nodup) :
    KeepsWeeks offset l now n (keepWeekly (.fixed offset) l now n) ↔
      KeysSeparate (.fixed offset) l now n := by
  constructor
  · intro h a ha b hb hadma hadmb
    rcases le_total a.timestamp b.timestamp with hle | hle
    · exact ⟨h.weekOf_eq hsorted hids ha hb hadma hadmb hle,
        h.weekKey_eq hsorted hids ha hb hadma hadmb hle⟩
    · exact ⟨fun hkey => (h.weekOf_eq hsorted hids hb ha hadmb hadma hle hkey.symm).symm,
        fun hweek => (h.weekKey_eq hsorted hids hb ha hadmb hadma hle hweek.symm).symm⟩
  · intro h id
    rw [mem_keepWeekly]
    constructor
    · rintro ⟨e, he, hid⟩
      exact ⟨e, he.congr fun a ha b hb hadma hadmb => (h a ha b hb hadma hadmb).mpr, hid⟩
    · rintro ⟨e, he, hid⟩
      exact ⟨e, he.congr fun a ha b hb hadma hadmb => (h a ha b hb hadma hadmb).mp, hid⟩

/-- Away from the days around New Year whose week belongs to the other year the keys are the weeks.
-/
theorem keysSeparate_of_isoYear
    (h : ∀ e ∈ l, yearOf (zone.dateNaive e.timestamp) = isoYear (zone.dateNaive e.timestamp)) :
    KeysSeparate zone l now n := by
  intro a ha b hb _ _
  rw [weekOf, weekOf, ← isoWeek_eq_iff, weekKey, weekKey, h a ha, h b hb, Prod.mk.injEq]

end Weekly

section Sample

/-- A snapshot of 2024-01-02 and one of 2024-12-30, the Monday of the first week of 2025. -/
def newYearSnapshots : List SnapshotEntry := [⟨1, 19724 * nanosPerDay⟩, ⟨2, 20087 * nanosPerDay⟩]

/-- **A snapshot of its own week is dropped**: on 2025-01-01 the rule with 60 weeks takes the two
snapshots for one week, since both have the year 2024 and the week 1. -/
theorem keepWeekly_drops_week : keepWeekly (.fixed 0) newYearSnapshots (20089 * nanosPerDay) 60 = {2} ∧
    ¬ KeepsWeeks 0 newYearSnapshots (20089 * nanosPerDay) 60
      (keepWeekly (.fixed 0) newYearSnapshots (20089 * nanosPerDay) 60) := by
  have hkept : keepWeekly (.fixed 0) newYearSnapshots (20089 * nanosPerDay) 60 = {2} := by
    decide +kernel
  refine ⟨hkept, fun h => ?_⟩
  rw [hkept] at h
  have hmem : (1 : ID) ∈ ({2} : Finset ID) := (h 1).mpr
    ⟨_, ⟨[], _, rfl, by unfold InWeeks; decide +kernel, fun y hy _ => by
      rw [List.mem_singleton.mp hy]
      decide +kernel⟩, rfl⟩
  revert hmem
  decide

end Sample

end Mapache
