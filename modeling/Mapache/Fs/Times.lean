import Mathlib.Data.List.Basic
import Mathlib.Tactic.NormNum

/-!
# Timestamps of files

A timestamp comes from `statx`, is kept as a `SystemTime` in the metadata of a node, is written with
its tree, and is handed back to the system as a `FileTime` (`fs/node.rs`, `fs/filetime.rs`,
`restorer/node_restorer.rs`). The timestamps of a directory survive this if and only if none of
those that are recorded is before 1970 (`times_survive_iff`).
-/

set_option autoImplicit false

namespace Mapache

/-! ## The standard library -/

/-- The values of an `i64`. -/
abbrev I64 : Type := { z : Int // -2 ^ 63 ≤ z ∧ z < 2 ^ 63 }

/-- The sum or difference `z`, unless it overflows. -/
def I64.checked (z : Int) : Option I64 :=
  if h : -2 ^ 63 ≤ z ∧ z < 2 ^ 63 then some ⟨z, h⟩ else none

/-- `statx_timestamp`, and the `timespec` inside a `SystemTime`. -/
structure Timespec where
  tvSec : I64
  tvNsec : Fin 1000000000
deriving DecidableEq

/-- `std::time::SystemTime`. -/
abbrev SystemTime := Timespec

/-- `std::time::Duration`. -/
structure Duration where
  secs : Nat
  nanos : Fin 1000000000

/-- `SystemTime::UNIX_EPOCH`. -/
def unixEpoch : SystemTime := ⟨⟨0, by decide⟩, 0⟩

instance : LE Timespec :=
  ⟨fun t u => t.tvSec.1 < u.tvSec.1 ∨ (t.tvSec.1 = u.tvSec.1 ∧ t.tvNsec ≤ u.tvNsec)⟩

instance (t u : Timespec) : Decidable (t ≤ u) :=
  inferInstanceAs (Decidable (_ ∨ _))

/-- `SystemTime::checked_add`. -/
def Timespec.checkedAdd (t : Timespec) (d : Duration) : Option Timespec :=
  (I64.checked (t.tvSec.1 + d.secs)).bind fun secs =>
    if h : d.nanos.1 + t.tvNsec.1 < 1000000000 then some ⟨secs, ⟨d.nanos.1 + t.tvNsec.1, h⟩⟩
    else (I64.checked (secs.1 + 1)).map fun secs =>
      ⟨secs, ⟨d.nanos.1 + t.tvNsec.1 - 1000000000, by omega⟩⟩

/-- `SystemTime::checked_sub`. -/
def Timespec.checkedSub (t : Timespec) (d : Duration) : Option Timespec :=
  (I64.checked (t.tvSec.1 - d.secs)).bind fun secs =>
    if h : d.nanos.1 ≤ t.tvNsec.1 then some ⟨secs, ⟨t.tvNsec.1 - d.nanos.1, by omega⟩⟩
    else (I64.checked (secs.1 - 1)).map fun secs =>
      ⟨secs, ⟨t.tvNsec.1 + 1000000000 - d.nanos.1, by omega⟩⟩

/-- `SystemTime::duration_since`. -/
def Timespec.durationSince (t earlier : Timespec) : Option Duration :=
  if earlier ≤ t then
    if h : earlier.tvNsec.1 ≤ t.tvNsec.1 then
      some ⟨(t.tvSec.1 - earlier.tvSec.1).toNat, ⟨t.tvNsec.1 - earlier.tvNsec.1, by omega⟩⟩
    else
      some ⟨(t.tvSec.1 - earlier.tvSec.1 - 1).toNat,
        ⟨t.tvNsec.1 + 1000000000 - earlier.tvNsec.1, by omega⟩⟩
  else none

theorem unixEpoch_le_iff {t : SystemTime} : unixEpoch ≤ t ↔ 0 ≤ t.tvSec.1 := by
  constructor
  · rintro (hlt | ⟨heq, -⟩)
    · exact Int.le_of_lt hlt
    · exact Int.le_of_eq heq
  · intro h
    rcases Int.lt_or_eq_of_le h with hlt | heq
    · exact .inl hlt
    · exact .inr ⟨heq, Fin.zero_le _⟩

theorem Timespec.durationSince_unixEpoch {t : SystemTime} (h : 0 ≤ t.tvSec.1) :
    t.durationSince unixEpoch = some ⟨t.tvSec.1.toNat, t.tvNsec⟩ := by
  have hzero : unixEpoch.tvSec.1 = 0 := rfl
  rw [durationSince, if_pos (unixEpoch_le_iff.mpr h), hzero, Int.sub_zero]
  exact dif_pos (Nat.zero_le _)

/-- Serde and the format of the trees, as far as timestamps go: a time before 1970 is refused, and
what is written is read back. -/
structure TimeFormat (W : Type) where
  write : SystemTime → Option W
  read : W → Option SystemTime
  isSome_write : ∀ t, (write t).isSome = true ↔ unixEpoch ≤ t
  read_write : ∀ t w, write t = some w → read w = some t

/-- The format that serde has: the seconds and nanoseconds since the epoch. -/
def secsNanosFormat : TimeFormat (Nat × Nat) where
  write t := (t.durationSince unixEpoch).map fun d => (d.secs, d.nanos.1)
  read w := if h : w.2 < 1000000000 then unixEpoch.checkedAdd ⟨w.1, ⟨w.2, h⟩⟩ else none
  isSome_write t := by
    rw [Option.isSome_map, Timespec.durationSince]
    split
    · rename_i hle
      split <;> exact iff_of_true rfl hle
    · rename_i hlt
      exact iff_of_false nofun hlt
  read_write t w hw := by
    by_cases hle : unixEpoch ≤ t
    · have hsec := unixEpoch_le_iff.mp hle
      rw [Timespec.durationSince_unixEpoch hsec, Option.map_some, Option.some.injEq] at hw
      subst hw
      have hzero : unixEpoch.tvSec.1 + (t.tvSec.1.toNat : Int) = t.tvSec.1 := by
        rw [Int.toNat_of_nonneg hsec]
        exact Int.zero_add _
      rw [dif_pos t.tvNsec.2, Timespec.checkedAdd, hzero, I64.checked, dif_pos t.tvSec.2]
      exact dif_pos t.tvNsec.2
    · rw [Timespec.durationSince, if_neg hle] at hw
      cases hw

/-! ## From `statx` to the tree -/

/-- The part of `statx` with the timestamps. -/
structure Statx where
  stxMask : UInt32
  stxAtime : Timespec
  stxBtime : Timespec
  stxMtime : Timespec

def statxAtime : UInt32 := 0x0020

def statxBtime : UInt32 := 0x0800

/-- The timestamps of a `Metadata`, or of the written form of one. -/
structure Times (T : Type) where
  accessedTime : Option T
  createdTime : Option T
  modifiedTime : Option T
deriving DecidableEq

/-- `Metadata::statx_to_system_time`. It panics where the operators do. -/
def statxToSystemTime (ts : Timespec) : Option SystemTime :=
  if 0 ≤ ts.tvSec.1 then unixEpoch.checkedAdd ⟨ts.tvSec.1.toNat, ts.tvNsec⟩
  else unixEpoch.checkedSub ⟨ts.tvSec.1.natAbs, ts.tvNsec⟩

/-- The accessed time is captured on request only. -/
def Statx.hasAtime (sx : Statx) (withAtime : Bool) : Bool :=
  withAtime && (sx.stxMask &&& statxAtime != 0)

def Statx.hasBtime (sx : Statx) : Bool :=
  sx.stxMask &&& statxBtime != 0

/-- A field of the metadata that is filled under a condition. -/
def captureTime (present : Bool) (ts : Timespec) : Option (Option SystemTime) :=
  if present then (statxToSystemTime ts).map some else some none

/-- `Metadata::from_statx`. -/
def Times.fromStatx (sx : Statx) (withAtime : Bool) : Option (Times SystemTime) :=
  (captureTime (sx.hasAtime withAtime) sx.stxAtime).bind fun accessed =>
    (captureTime true sx.stxMtime).bind fun modified =>
      (captureTime sx.hasBtime sx.stxBtime).map fun created => ⟨accessed, created, modified⟩

namespace TimeFormat

variable {W : Type} (F : TimeFormat W)

/-- A field that is `None` is left out. -/
def writeField : Option SystemTime → Option (Option W)
  | none => some none
  | some t => (F.write t).map some

def readField : Option W → Option (Option SystemTime)
  | none => some none
  | some w => (F.read w).map some

def writeTimes (times : Times SystemTime) : Option (Times W) :=
  (F.writeField times.accessedTime).bind fun accessed =>
    (F.writeField times.createdTime).bind fun created =>
      (F.writeField times.modifiedTime).map fun modified => ⟨accessed, created, modified⟩

def readTimes (times : Times W) : Option (Times SystemTime) :=
  (F.readField times.accessedTime).bind fun accessed =>
    (F.readField times.createdTime).bind fun created =>
      (F.readField times.modifiedTime).map fun modified => ⟨accessed, created, modified⟩

/-- The tree of a directory with these files. One node that cannot be written stops it. -/
def writeTree (withAtime : Bool) (files : List Statx) : Option (List (Times W)) :=
  (files.mapM fun sx => Times.fromStatx sx withAtime).bind fun nodes => nodes.mapM F.writeTimes

def readTree (tree : List (Times W)) : Option (List (Times SystemTime)) :=
  tree.mapM F.readTimes

end TimeFormat

/-! ## Back to the system -/

structure FileTime where
  seconds : Int
  nanos : Nat
deriving DecidableEq

/-- The cast of a `u64`. -/
def asI64 (n : Nat) : Int := Int.bmod n (2 ^ 64)

/-- `impl From<SystemTime> for FileTime`. -/
def FileTime.ofSystemTime (time : SystemTime) : FileTime :=
  let duration := (time.durationSince unixEpoch).getD ⟨0, 0⟩
  ⟨asI64 duration.secs, duration.nanos.1⟩

/-- What `utimensat` is asked for. -/
structure SetTimes where
  atime : FileTime
  mtime : FileTime
  followSymlinks : Bool
deriving DecidableEq

def restoreTimes (atime mtime : Option SystemTime) (isSymlink : Bool) : Option SetTimes :=
  mtime.map fun modifiedTime =>
    let ftMtime := FileTime.ofSystemTime modifiedTime
    ⟨(atime.map FileTime.ofSystemTime).getD ftMtime, ftMtime, !isSymlink⟩

/-! ## What survives -/

/-- The timestamps of a file that a snapshot records, as the kernel gave them. -/
def Statx.recorded (sx : Statx) (withAtime : Bool) : Times SystemTime where
  accessedTime := if sx.hasAtime withAtime then some sx.stxAtime else none
  createdTime := if sx.hasBtime then some sx.stxBtime else none
  modifiedTime := some sx.stxMtime

/-- No timestamp is before 1970. -/
structure Times.SinceEpoch (times : Times SystemTime) : Prop where
  accessed : ∀ t, times.accessedTime = some t → 0 ≤ t.tvSec.1
  created : ∀ t, times.createdTime = some t → 0 ≤ t.tvSec.1
  modified : ∀ t, times.modifiedTime = some t → 0 ≤ t.tvSec.1

def FileTime.ofTimespec (ts : Timespec) : FileTime := ⟨ts.tvSec.1, ts.tvNsec.1⟩

/-- The tree of a directory is written, the nodes that are read back have the timestamps of the
files, and restoring them asks the system for these. The modified time stands in for an accessed
time that is not recorded. -/
def TimesSurvive {W : Type} (F : TimeFormat W) (withAtime : Bool) (files : List Statx) : Prop :=
  ∃ tree, F.writeTree withAtime files = some tree ∧
    F.readTree tree = some (files.map fun sx => sx.recorded withAtime) ∧
    ∀ sx ∈ files, ∀ isSymlink,
      restoreTimes (sx.recorded withAtime).accessedTime (sx.recorded withAtime).modifiedTime
        isSymlink =
        some ⟨.ofTimespec (if sx.hasAtime withAtime then sx.stxAtime else sx.stxMtime),
          .ofTimespec sx.stxMtime, !isSymlink⟩

/-! ### One timestamp -/

theorem I64.checked_val (z : I64) : I64.checked z.1 = some z :=
  dif_pos z.2

theorem statxToSystemTime_of_nonneg {ts : Timespec} (h : 0 ≤ ts.tvSec.1) :
    statxToSystemTime ts = some ts := by
  have hsum : unixEpoch.tvSec.1 + (ts.tvSec.1.toNat : Int) = ts.tvSec.1 := by
    rw [Int.toNat_of_nonneg h]
    exact Int.zero_add _
  rw [statxToSystemTime, if_pos h, Timespec.checkedAdd, hsum, I64.checked_val]
  exact dif_pos ts.tvNsec.2

/-- The nanoseconds of a negative timestamp count forwards, and here they are subtracted. -/
theorem statxToSystemTime_of_neg {ts : Timespec} (h : ts.tvSec.1 < 0) {t : SystemTime}
    (ht : statxToSystemTime ts = some t) : t.tvSec.1 < 0 := by
  have hzero : unixEpoch.tvSec.1 = 0 := rfl
  rw [statxToSystemTime, if_neg (by omega), Timespec.checkedSub, hzero, Option.bind_eq_some_iff] at ht
  obtain ⟨secs, hsecs, ht⟩ := ht
  have hneg : secs.1 < 0 := by
    rw [I64.checked] at hsecs
    split at hsecs
    · cases hsecs
      dsimp only
      omega
    · cases hsecs
  split at ht
  · cases ht
    exact hneg
  · rw [Option.map_eq_some_iff] at ht
    obtain ⟨secs', hsecs', rfl⟩ := ht
    rw [I64.checked] at hsecs'
    split at hsecs'
    · cases hsecs'
      dsimp only
      omega
    · cases hsecs'

theorem asI64_toNat {z : I64} (h : 0 ≤ z.1) : asI64 z.1.toNat = z.1 := by
  have hhigh := z.2.2
  unfold asI64
  rw [Int.toNat_of_nonneg h]
  apply Int.bmod_eq_of_le
  · norm_num
    omega
  · norm_num
    omega

theorem FileTime.ofSystemTime_of_nonneg {t : SystemTime} (h : 0 ≤ t.tvSec.1) :
    FileTime.ofSystemTime t = .ofTimespec t := by
  rw [ofSystemTime, Timespec.durationSince_unixEpoch h, Option.getD_some, ofTimespec, asI64_toNat h]

/-! ### One field -/

namespace TimeFormat

variable {W : Type} (F : TimeFormat W)

/-- A field goes through when its timestamp is not before 1970. -/
theorem writeField_spec {present : Bool} {ts : Timespec} (h : present = true → 0 ≤ ts.tvSec.1) :
    captureTime present ts = some (if present then some ts else none) ∧
      ∃ w, F.writeField (if present then some ts else none) = some w ∧
        F.readField w = some (if present then some ts else none) := by
  cases present with
  | false => exact ⟨rfl, none, rfl, rfl⟩
  | true =>
    have hsec := h rfl
    obtain ⟨w, hw⟩ := Option.isSome_iff_exists.mp
      ((F.isSome_write ts).mpr (unixEpoch_le_iff.mpr hsec))
    refine ⟨?_, some w, ?_, ?_⟩
    · rw [captureTime, if_pos rfl, statxToSystemTime_of_nonneg hsec]
      rfl
    · rw [if_pos rfl, writeField, hw]
      rfl
    · rw [if_pos rfl, readField, F.read_write ts w hw]
      rfl

/-- And only then. -/
theorem nonneg_of_writeField {present : Bool} {ts : Timespec} {field : Option SystemTime}
    {w : Option W} (hfield : captureTime present ts = some field) (hw : F.writeField field = some w)
    (hpresent : present = true) : 0 ≤ ts.tvSec.1 := by
  by_contra hneg
  rw [captureTime, if_pos hpresent, Option.map_eq_some_iff] at hfield
  obtain ⟨t, ht, rfl⟩ := hfield
  have hlt := statxToSystemTime_of_neg (by omega) ht
  rw [writeField, Option.map_eq_some_iff] at hw
  obtain ⟨v, hv, -⟩ := hw
  have hle := unixEpoch_le_iff.mp ((F.isSome_write t).mp (Option.isSome_of_eq_some hv))
  omega

end TimeFormat

/-! ### One file -/

theorem Statx.sinceEpoch_iff (sx : Statx) (withAtime : Bool) :
    (sx.recorded withAtime).SinceEpoch ↔ (sx.hasAtime withAtime = true → 0 ≤ sx.stxAtime.tvSec.1) ∧
      (sx.hasBtime = true → 0 ≤ sx.stxBtime.tvSec.1) ∧ 0 ≤ sx.stxMtime.tvSec.1 := by
  constructor
  · rintro ⟨haccessed, hcreated, hmodified⟩
    exact ⟨fun h => haccessed _ (if_pos h), fun h => hcreated _ (if_pos h), hmodified _ rfl⟩
  · rintro ⟨haccessed, hcreated, hmodified⟩
    refine ⟨?_, ?_, ?_⟩
    · intro t ht
      obtain ⟨hpresent, heq⟩ := Option.ite_none_right_eq_some.mp ht
      cases heq
      exact haccessed hpresent
    · intro t ht
      obtain ⟨hpresent, heq⟩ := Option.ite_none_right_eq_some.mp ht
      cases heq
      exact hcreated hpresent
    · intro t ht
      cases ht
      exact hmodified

theorem Times.fromStatx_eq_some {sx : Statx} {withAtime : Bool} {times : Times SystemTime}
    (h : Times.fromStatx sx withAtime = some times) :
    captureTime (sx.hasAtime withAtime) sx.stxAtime = some times.accessedTime ∧
      captureTime sx.hasBtime sx.stxBtime = some times.createdTime ∧
      captureTime true sx.stxMtime = some times.modifiedTime := by
  simp only [fromStatx, Option.bind_eq_some_iff, Option.map_eq_some_iff] at h
  obtain ⟨accessed, haccessed, modified, hmodified, created, hcreated, rfl⟩ := h
  exact ⟨haccessed, hcreated, hmodified⟩

namespace TimeFormat

variable {W : Type} {F : TimeFormat W}

theorem writeTimes_eq_some {times : Times SystemTime} {written : Times W}
    (h : F.writeTimes times = some written) :
    F.writeField times.accessedTime = some written.accessedTime ∧
      F.writeField times.createdTime = some written.createdTime ∧
      F.writeField times.modifiedTime = some written.modifiedTime := by
  simp only [writeTimes, Option.bind_eq_some_iff, Option.map_eq_some_iff] at h
  obtain ⟨accessed, haccessed, created, hcreated, modified, hmodified, rfl⟩ := h
  exact ⟨haccessed, hcreated, hmodified⟩

theorem sinceEpoch_of_write {sx : Statx} {withAtime : Bool} {times : Times SystemTime}
    {written : Times W} (htimes : Times.fromStatx sx withAtime = some times)
    (hwritten : F.writeTimes times = some written) : (sx.recorded withAtime).SinceEpoch := by
  obtain ⟨haccessed, hcreated, hmodified⟩ := Times.fromStatx_eq_some htimes
  obtain ⟨haccessed', hcreated', hmodified'⟩ := writeTimes_eq_some hwritten
  rw [Statx.sinceEpoch_iff]
  exact ⟨F.nonneg_of_writeField haccessed haccessed', F.nonneg_of_writeField hcreated hcreated',
    F.nonneg_of_writeField hmodified hmodified' rfl⟩

theorem write_of_sinceEpoch {sx : Statx} {withAtime : Bool}
    (h : (sx.recorded withAtime).SinceEpoch) :
    Times.fromStatx sx withAtime = some (sx.recorded withAtime) ∧
      ∃ written, F.writeTimes (sx.recorded withAtime) = some written ∧
        F.readTimes written = some (sx.recorded withAtime) := by
  obtain ⟨haccessed, hcreated, hmodified⟩ := (sx.sinceEpoch_iff withAtime).mp h
  obtain ⟨ha, accessed, hwa, hra⟩ := F.writeField_spec haccessed
  obtain ⟨hc, created, hwc, hrc⟩ := F.writeField_spec hcreated
  have hpresent : true = true → 0 ≤ sx.stxMtime.tvSec.1 := fun _ => hmodified
  obtain ⟨hm, modified, hwm, hrm⟩ := F.writeField_spec hpresent
  refine ⟨?_, ⟨accessed, created, modified⟩, ?_, ?_⟩
  · rw [Times.fromStatx, ha, hc, hm]
    rfl
  · rw [writeTimes, Statx.recorded, hwa, hwc]
    exact congrArg (Option.map _) hwm
  · rw [readTimes, hra, hrc]
    exact congrArg (Option.map _) hrm

/-! ### A tree -/

theorem sinceEpoch_of_writeTree {withAtime : Bool} {files : List Statx} :
    ∀ {tree : List (Times W)}, F.writeTree withAtime files = some tree →
      ∀ sx ∈ files, (sx.recorded withAtime).SinceEpoch := by
  induction files with
  | nil => exact fun _ _ h => nomatch h
  | cons sx files ih =>
    intro tree htree
    rw [writeTree, Option.bind_eq_some_iff] at htree
    obtain ⟨nodes, hnodes, hwritten⟩ := htree
    simp only [List.mapM_cons, Option.bind_eq_bind, Option.bind_eq_some_iff] at hnodes
    obtain ⟨times, htimes, nodes', hnodes', heq⟩ := hnodes
    cases heq
    simp only [List.mapM_cons, Option.bind_eq_bind, Option.bind_eq_some_iff] at hwritten
    obtain ⟨written, hwritten, tree', htree', -⟩ := hwritten
    have htail : F.writeTree withAtime files = some tree' := by
      rw [writeTree, hnodes']
      exact htree'
    rw [List.forall_mem_cons]
    exact ⟨sinceEpoch_of_write htimes hwritten, ih htail⟩

theorem writeTree_of_sinceEpoch {withAtime : Bool} {files : List Statx}
    (h : ∀ sx ∈ files, (sx.recorded withAtime).SinceEpoch) :
    ∃ tree, F.writeTree withAtime files = some tree ∧
      F.readTree tree = some (files.map fun sx => sx.recorded withAtime) := by
  induction files with
  | nil => exact ⟨[], rfl, rfl⟩
  | cons sx files ih =>
    rw [List.forall_mem_cons] at h
    obtain ⟨tree, htree, hread⟩ := ih h.2
    rw [writeTree, Option.bind_eq_some_iff] at htree
    obtain ⟨nodes, hnodes, htree⟩ := htree
    obtain ⟨htimes, written, hwritten, hback⟩ := write_of_sinceEpoch (F := F) h.1
    refine ⟨written :: tree, ?_, ?_⟩
    · rw [writeTree, List.mapM_cons, htimes, hnodes]
      simp only [Option.bind_eq_bind, Option.bind_some, Option.pure_def, List.mapM_cons, hwritten,
        htree]
    · rw [readTree] at hread ⊢
      simp only [List.mapM_cons, hback, hread, Option.bind_eq_bind, Option.bind_some, Option.pure_def,
        List.map_cons]

end TimeFormat

theorem restoreTimes_recorded {sx : Statx} {withAtime : Bool}
    (h : (sx.recorded withAtime).SinceEpoch) (isSymlink : Bool) :
    restoreTimes (sx.recorded withAtime).accessedTime (sx.recorded withAtime).modifiedTime isSymlink =
      some ⟨.ofTimespec (if sx.hasAtime withAtime then sx.stxAtime else sx.stxMtime),
        .ofTimespec sx.stxMtime, !isSymlink⟩ := by
  obtain ⟨haccessed, -, hmodified⟩ := (sx.sinceEpoch_iff withAtime).mp h
  have hmtime := FileTime.ofSystemTime_of_nonneg hmodified
  cases hpresent : sx.hasAtime withAtime with
  | false => simp [restoreTimes, Statx.recorded, hpresent, hmtime]
  | true =>
    have hatime := FileTime.ofSystemTime_of_nonneg (haccessed hpresent)
    simp [restoreTimes, Statx.recorded, hpresent, hmtime, hatime]

/-- **The timestamps of a directory survive backup and restore exactly when none of them is before
1970.** An earlier one stops the whole tree. -/
theorem times_survive_iff {W : Type} (F : TimeFormat W) (withAtime : Bool) (files : List Statx) :
    TimesSurvive F withAtime files ↔ ∀ sx ∈ files, (sx.recorded withAtime).SinceEpoch := by
  constructor
  · rintro ⟨tree, htree, -, -⟩
    exact F.sinceEpoch_of_writeTree htree
  · intro h
    obtain ⟨tree, htree, hread⟩ := F.writeTree_of_sinceEpoch h
    exact ⟨tree, htree, hread, fun sx hsx => restoreTimes_recorded (h sx hsx)⟩

/-- Half a second before 1970, as the kernel gives it. -/
def halfSecondEarly : Timespec := ⟨⟨-1, by decide⟩, 500000000⟩

/-- The modified time half a second before 1970 becomes one and a half seconds before it, and the
tree of the file is not written. -/
theorem early_time_stops_tree :
    statxToSystemTime halfSecondEarly = some ⟨⟨-2, by decide⟩, 500000000⟩ ∧
      secsNanosFormat.writeTree false [⟨0, unixEpoch, unixEpoch, halfSecondEarly⟩] = none ∧
      ¬ TimesSurvive secsNanosFormat false [⟨0, unixEpoch, unixEpoch, halfSecondEarly⟩] := by
  have hnone : secsNanosFormat.writeTree false [⟨0, unixEpoch, unixEpoch, halfSecondEarly⟩] =
      none := by
    decide +kernel
  refine ⟨by decide +kernel, hnone, ?_⟩
  rintro ⟨tree, htree, -⟩
  rw [hnone] at htree
  cases htree

end Mapache
