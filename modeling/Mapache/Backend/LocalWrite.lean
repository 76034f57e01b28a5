import Mathlib.Logic.Function.Basic
import Mapache.Fs.Tree
import Mapache.Lib.Patch
import Mapache.Lib.Run

/-!
# Writes of a local backend

`LocalFS::write` creates a temporary file, writes to it and renames it, and `LocalFS::read` opens a
file, asks for its length and reads that much. Any number of both run at the same time, in one
process or in several, and a write may stop after every step.

The name of the temporary file comes from the path alone, so two writes of one path share it: the
later one truncates what the earlier one has written and is about to rename. Where no two writes
with one temporary file overlap, every read gives the whole contents of one write
(`reads_are_whole`); two writes that do, and a read that gives neither, are below
(`overlapping_writes_are_torn`).
-/

set_option autoImplicit false

namespace Mapache

open Lib

/-! ## Names -/

/-- `Path::file_stem`: what stands before the last dot, unless that is nothing. -/
def fileStem (name : Bytes) : Bytes :=
  let stem := ((name.reverse.dropWhile fun b => b ≠ 46).drop 1).reverse
  if stem = [] then name else stem

/-- `REPO_TMP_EXTENSION`, which is `tmp`. -/
def repoTmpExtension : Bytes := [116, 109, 112]

/-- `path.with_extension(REPO_TMP_EXTENSION)`. -/
def tmpPath (path : Path) : Path :=
  match fileName path with
  | none => path
  | some name => path.dropLast ++ [.normal (fileStem name ++ 46 :: repoTmpExtension)]

/-! ## The directory -/

/-- Names and the files they stand for. A file that has lost its name can still be open, so the
numbers from `next` on are those of new files. -/
structure LocalDisk where
  names : Path → Option Nat
  bytes : Nat → Bytes
  next : Nat

namespace LocalDisk

/-- An empty directory. -/
def empty : LocalDisk := ⟨fun _ => none, fun _ => [], 0⟩

/-- `File::create`: a file that is there is truncated. -/
def create (disk : LocalDisk) (path : Path) : LocalDisk × Nat :=
  match disk.names path with
  | some i => ({ disk with bytes := Function.update disk.bytes i [] }, i)
  | none =>
    ({ names := Function.update disk.names path (some disk.next)
       bytes := Function.update disk.bytes disk.next []
       next := disk.next + 1 }, disk.next)

/-- `write` at a position of an open file. -/
def write (disk : LocalDisk) (i offset : Nat) (data : Bytes) : LocalDisk :=
  { disk with bytes := Function.update disk.bytes i (writeAt 0 (disk.bytes i) offset data) }

/-- `rename`, of a name that is there. -/
def rename (disk : LocalDisk) (src dst : Path) : LocalDisk :=
  if src = dst then disk
  else
    let moved := Function.update disk.names dst (disk.names src)
    { disk with names := Function.update moved src none }

end LocalDisk

/-! ## Writers and readers -/

/-- A call of `write`. -/
inductive LocalWriter where
  | idle
  /-- The temporary file is open, and some of the data is written. -/
  | writing (ino written : Nat)
  /-- It has returned or was stopped. -/
  | ended
  deriving DecidableEq

/-- What a call of `read` returns. -/
inductive LocalRead where
  | notFound
  /-- The file has become shorter. -/
  | failed
  | bytes (data : Bytes)
  deriving DecidableEq

/-- A call of `read`. -/
inductive LocalReader where
  | idle
  | opened (path : Path) (ino : Nat)
  /-- The length is known, and some of the data is read. -/
  | reading (path : Path) (ino size : Nat) (data : Bytes)
  | returned (path : Path) (result : LocalRead)
  deriving DecidableEq

/-- A directory with the calls of `write` and `read`. -/
structure LocalCalls (ι κ : Type) where
  disk : LocalDisk
  writers : ι → LocalWriter
  readers : κ → LocalReader

/-- What a step is about. -/
inductive LocalLabel (ι : Type) where
  | create (w : ι)
  | other

namespace LocalCalls

variable {ι κ : Type}

/-- No call has done anything. -/
def start : LocalCalls ι κ := ⟨.empty, fun _ => .idle, fun _ => .idle⟩

section Steps

variable [DecidableEq ι] [DecidableEq κ]

def setWriter (s : LocalCalls ι κ) (w : ι) (writer : LocalWriter) : LocalCalls ι κ :=
  { s with writers := Function.update s.writers w writer }

def setReader (s : LocalCalls ι κ) (r : κ) (reader : LocalReader) : LocalCalls ι κ :=
  { s with readers := Function.update s.readers r reader }

/-- A step of the calls, where the write `w` is of `data w` to `path w`. -/
inductive Step (path : ι → Path) (data : ι → Bytes) :
    LocalCalls ι κ → LocalLabel ι → LocalCalls ι κ → Prop where
  | create {s : LocalCalls ι κ} {w : ι} : s.writers w = .idle →
      Step path data s (.create w)
        ({ s with disk := (s.disk.create (tmpPath (path w))).1 }.setWriter w
          (.writing (s.disk.create (tmpPath (path w))).2 0))
  | write {s : LocalCalls ι κ} {w : ι} {i n k : Nat} :
      s.writers w = .writing i n → 0 < k → n + k ≤ (data w).length →
      Step path data s .other
        ({ s with disk := s.disk.write i n (((data w).drop n).take k) }.setWriter w
          (.writing i (n + k)))
  | rename {s : LocalCalls ι κ} {w : ι} {i j : Nat} :
      s.writers w = .writing i (data w).length → s.disk.names (tmpPath (path w)) = some j →
      Step path data s .other
        ({ s with disk := s.disk.rename (tmpPath (path w)) (path w) }.setWriter w .ended)
  /-- A write fails or is killed; so does one whose temporary file is gone. -/
  | stop {s : LocalCalls ι κ} {w : ι} : Step path data s .other (s.setWriter w .ended)
  | openFile {s : LocalCalls ι κ} {r : κ} {p : Path} {i : Nat} : s.readers r = .idle →
      s.disk.names p = some i → Step path data s .other (s.setReader r (.opened p i))
  | notFound {s : LocalCalls ι κ} {r : κ} {p : Path} : s.readers r = .idle →
      s.disk.names p = none → Step path data s .other (s.setReader r (.returned p .notFound))
  | metadata {s : LocalCalls ι κ} {r : κ} {p : Path} {i : Nat} : s.readers r = .opened p i →
      Step path data s .other (s.setReader r (.reading p i (s.disk.bytes i).length []))
  | read {s : LocalCalls ι κ} {r : κ} {p : Path} {i size k : Nat} {got : Bytes} :
      s.readers r = .reading p i size got → got.length < size → 0 < k →
      got.length + k ≤ size → got.length + k ≤ (s.disk.bytes i).length →
      Step path data s .other
        (s.setReader r (.reading p i size
          (got ++ ((s.disk.bytes i).drop got.length).take k)))
  | readFail {s : LocalCalls ι κ} {r : κ} {p : Path} {i size : Nat} {got : Bytes} :
      s.readers r = .reading p i size got → got.length < size →
      (s.disk.bytes i).length ≤ got.length →
      Step path data s .other (s.setReader r (.returned p .failed))
  | readDone {s : LocalCalls ι κ} {r : κ} {p : Path} {i size : Nat} {got : Bytes} :
      s.readers r = .reading p i size got → size ≤ got.length →
      Step path data s .other (s.setReader r (.returned p (.bytes got)))

end Steps

/-- The condition on a step: a temporary file is created only when no other write has it. -/
def Alone (path : ι → Path) (s : LocalCalls ι κ) (l : LocalLabel ι) : Prop :=
  ∀ w, l = .create w → ∀ w' ino written, s.writers w' = .writing ino written →
    tmpPath (path w') ≠ tmpPath (path w)

/-! ## Whole files -/

section Whole

variable {path : ι → Path} {data : ι → Bytes} {s s' : LocalCalls ι κ} {l : LocalLabel ι} {w : ι}
  {p : Path} {i : Nat} {disk : LocalDisk}

/-- A file that was written as a whole for the path, and that no write can still reach. -/
structure Settled (path : ι → Path) (data : ι → Bytes) (disk : LocalDisk) (p : Path) (i : Nat) :
    Prop where
  old : i < disk.next
  unreached : ∀ w, disk.names (tmpPath (path w)) ≠ some i
  whole : ∃ w, path w = p ∧ disk.bytes i = data w

/-- The directory: every temporary file has what its write has written, and every other file is
whole. -/
structure Tidy (path : ι → Path) (data : ι → Bytes) (disk : LocalDisk) (writers : ι → LocalWriter) :
    Prop where
  names_lt : ∀ p i, disk.names p = some i → i < disk.next
  names_inj : ∀ p q i, disk.names p = some i → disk.names q = some i → p = q
  writing : ∀ w i n, writers w = .writing i n → disk.names (tmpPath (path w)) = some i ∧
    n ≤ (data w).length ∧ disk.bytes i = (data w).take n
  alone : ∀ w w' i n i' n', writers w = .writing i n → writers w' = .writing i' n' →
    tmpPath (path w) = tmpPath (path w') → w = w'
  whole : ∀ p i, disk.names p = some i → (∀ w, p ≠ tmpPath (path w)) →
    ∃ w, path w = p ∧ disk.bytes i = data w

/-- A reader of a path that is no temporary file has a whole file. -/
def ReadsWhole (path : ι → Path) (data : ι → Bytes) (disk : LocalDisk) : LocalReader → Prop
  | .idle => True
  | .opened p i => (∀ w, p ≠ tmpPath (path w)) → Settled path data disk p i
  | .reading p i size got => (∀ w, p ≠ tmpPath (path w)) →
      Settled path data disk p i ∧ size = (disk.bytes i).length ∧
        got = (disk.bytes i).take got.length
  | .returned p result => (∀ w, p ≠ tmpPath (path w)) →
      result = .notFound ∨ ∃ w, path w = p ∧ result = .bytes (data w)

/-- The file of a name that is no temporary one. -/
theorem Tidy.settled {writers : ι → LocalWriter} (h : Tidy path data disk writers)
    (hname : disk.names p = some i) (hp : ∀ w, p ≠ tmpPath (path w)) : Settled path data disk p i where
  old := h.names_lt p i hname
  unreached := fun w htmp => hp w (h.names_inj _ _ i hname htmp)
  whole := h.whole p i hname hp

/-! ### One operation -/

/-- An open file of which another one is changed. -/
theorem Settled.mono {disk' : LocalDisk} (h : Settled path data disk p i)
    (hnext : disk.next ≤ disk'.next) (hbytes : disk'.bytes i = disk.bytes i)
    (hnames : ∀ w, disk'.names (tmpPath (path w)) ≠ some i) : Settled path data disk' p i := by
  obtain ⟨w, hw, hwhole⟩ := h.whole
  exact ⟨h.old.trans_le hnext, hnames, w, hw, hbytes.trans hwhole⟩

theorem Settled.create (h : Settled path data disk p i) :
    Settled path data (disk.create (tmpPath (path w))).1 p i := by
  unfold LocalDisk.create
  split
  · rename_i j hj
    refine h.mono le_rfl ?_ h.unreached
    have hne : i ≠ j := by
      rintro rfl
      exact h.unreached w hj
    exact Function.update_of_ne hne _ _
  · have hne : i ≠ disk.next := Nat.ne_of_lt h.old
    refine h.mono (Nat.le_succ _) (Function.update_of_ne hne _ _) fun w' => ?_
    dsimp only
    by_cases heq : tmpPath (path w') = tmpPath (path w)
    · rw [heq, Function.update_self]
      intro hsame
      exact hne (Option.some.inj hsame).symm
    · rw [Function.update_of_ne heq]
      exact h.unreached w'

theorem Settled.write {offset : Nat} {bytes : Bytes} {j : Nat} (h : Settled path data disk p i)
    (hj : disk.names (tmpPath (path w)) = some j) : Settled path data (disk.write j offset bytes) p
    i := by
  have hne : i ≠ j := by
    rintro rfl
    exact h.unreached w hj
  exact h.mono le_rfl (Function.update_of_ne hne _ _) h.unreached

theorem Settled.rename (h : Settled path data disk p i)
    (hpaths : ∀ w w', path w ≠ tmpPath (path w')) :
    Settled path data (disk.rename (tmpPath (path w)) (path w)) p i := by
  rw [LocalDisk.rename, if_neg (Ne.symm (hpaths w w))]
  refine h.mono le_rfl rfl fun w' => ?_
  dsimp only
  by_cases heq : tmpPath (path w') = tmpPath (path w)
  · rw [heq, Function.update_self]
    exact Option.some_ne_none i |>.symm
  · rw [Function.update_of_ne heq, Function.update_of_ne (Ne.symm (hpaths w w'))]
    exact h.unreached w'

/-- What the readers have stays whole. -/
theorem ReadsWhole.mono {disk' : LocalDisk} {reader : LocalReader}
    (h : ReadsWhole path data disk reader)
    (hsettled : ∀ p i, Settled path data disk p i →
      Settled path data disk' p i ∧ disk'.bytes i = disk.bytes i) :
    ReadsWhole path data disk' reader := by
  cases reader with
  | idle => trivial
  | opened p i => exact fun hp => (hsettled p i (h hp)).1
  | reading p i size got =>
    intro hp
    obtain ⟨hset, hsize, hgot⟩ := h hp
    obtain ⟨hset', hbytes⟩ := hsettled p i hset
    rw [hbytes]
    exact ⟨hset', hsize, hgot⟩
  | returned p result => exact h

/-! ### One step -/

theorem Tidy.create [DecidableEq ι] {writers : ι → LocalWriter} (h : Tidy path data disk writers)
    (halone : ∀ w' i n, writers w' = .writing i n → tmpPath (path w') ≠ tmpPath (path w)) :
    Tidy path data (disk.create (tmpPath (path w))).1
      (Function.update writers w (.writing (disk.create (tmpPath (path w))).2 0)) := by
  -- the writes that are going on have other temporary files
  have hother : ∀ w' i n, Function.update writers w
      (.writing (disk.create (tmpPath (path w))).2 0) w' = .writing i n →
      (w' = w ∧ i = (disk.create (tmpPath (path w))).2 ∧ n = 0) ∨
        (w' ≠ w ∧ writers w' = .writing i n ∧ tmpPath (path w') ≠ tmpPath (path w)) := by
    intro w' i n hw'
    by_cases heq : w' = w
    · subst heq
      rw [Function.update_self] at hw'
      cases hw'
      exact Or.inl ⟨rfl, rfl, rfl⟩
    · rw [Function.update_of_ne heq] at hw'
      exact Or.inr ⟨heq, hw', halone w' i n hw'⟩
  have hself : (disk.create (tmpPath (path w))).1.names (tmpPath (path w)) =
      some (disk.create (tmpPath (path w))).2 ∧
      (disk.create (tmpPath (path w))).1.bytes (disk.create (tmpPath (path w))).2 = [] := by
    unfold LocalDisk.create
    split
    · rename_i j hj
      exact ⟨hj, Function.update_self _ _ _⟩
    · exact ⟨Function.update_self _ _ _, Function.update_self _ _ _⟩
  have hnames : ∀ p, p ≠ tmpPath (path w) →
      (disk.create (tmpPath (path w))).1.names p = disk.names p := by
    intro p hp
    unfold LocalDisk.create
    split
    · rfl
    · exact Function.update_of_ne hp _ _
  -- the file of another name is another file
  have hbytes : ∀ p i, p ≠ tmpPath (path w) → disk.names p = some i →
      i ≠ (disk.create (tmpPath (path w))).2 ∧
        (disk.create (tmpPath (path w))).1.bytes i = disk.bytes i := by
    intro p i hp hi
    unfold LocalDisk.create
    split
    · rename_i j hj
      have hne : i ≠ j := by
        rintro rfl
        exact hp (h.names_inj _ _ _ hi hj)
      exact ⟨hne, Function.update_of_ne hne _ _⟩
    · have hne : i ≠ disk.next := Nat.ne_of_lt (h.names_lt p i hi)
      exact ⟨hne, Function.update_of_ne hne _ _⟩
  have hnext : disk.next ≤ (disk.create (tmpPath (path w))).1.next ∧
      (disk.create (tmpPath (path w))).2 < (disk.create (tmpPath (path w))).1.next := by
    unfold LocalDisk.create
    split
    · rename_i j hj
      exact ⟨le_rfl, h.names_lt _ j hj⟩
    · exact ⟨Nat.le_succ _, Nat.lt_succ_self _⟩
  refine ⟨fun p i hi => ?_, fun p q i hp hq => ?_, fun w' i n hw' => ?_, ?_, fun p i hi hp => ?_⟩
  · by_cases heq : p = tmpPath (path w)
    · rw [heq, hself.1] at hi
      cases hi
      exact hnext.2
    · rw [hnames p heq] at hi
      exact (h.names_lt p i hi).trans_le hnext.1
  · by_cases hpt : p = tmpPath (path w)
    · by_cases hqt : q = tmpPath (path w)
      · rw [hpt, hqt]
      · rw [hpt, hself.1] at hp
        rw [hnames q hqt] at hq
        cases hp
        exact absurd rfl (hbytes q _ hqt hq).1
    · rw [hnames p hpt] at hp
      by_cases hqt : q = tmpPath (path w)
      · rw [hqt, hself.1] at hq
        cases hq
        exact absurd rfl (hbytes p _ hpt hp).1
      · rw [hnames q hqt] at hq
        exact h.names_inj p q i hp hq
  · rcases hother w' i n hw' with ⟨rfl, rfl, rfl⟩ | ⟨-, hold, htmp⟩
    · exact ⟨hself.1, Nat.zero_le _, hself.2⟩
    · obtain ⟨hname, hle, htake⟩ := h.writing w' i n hold
      refine ⟨(hnames _ htmp).trans hname, hle, ?_⟩
      rw [(hbytes _ i htmp hname).2, htake]
  · intro w₁ w₂ i₁ n₁ i₂ n₂ h₁ h₂ hsame
    rcases hother w₁ i₁ n₁ h₁ with ⟨rfl, -, -⟩ | ⟨-, hold₁, htmp₁⟩
    · rcases hother w₂ i₂ n₂ h₂ with ⟨rfl, -, -⟩ | ⟨-, -, htmp₂⟩
      · rfl
      · exact absurd hsame.symm htmp₂
    · rcases hother w₂ i₂ n₂ h₂ with ⟨rfl, -, -⟩ | ⟨-, hold₂, -⟩
      · exact absurd hsame htmp₁
      · exact h.alone w₁ w₂ i₁ n₁ i₂ n₂ hold₁ hold₂ hsame
  · have hne := hp w
    rw [hnames p hne] at hi
    obtain ⟨w', hw', hwhole⟩ := h.whole p i hi hp
    exact ⟨w', hw', (hbytes p i hne hi).2.trans hwhole⟩

theorem Tidy.write [DecidableEq ι] {writers : ι → LocalWriter} {n count : Nat}
    (h : Tidy path data disk writers) (hw : writers w = .writing i n)
    (hle : n + count ≤ (data w).length) :
    Tidy path data (disk.write i n (((data w).drop n).take count))
      (Function.update writers w (.writing i (n + count))) := by
  obtain ⟨hname, -, htake⟩ := h.writing w i n hw
  -- the file grows by the next bytes
  have hgrow : writeAt 0 (disk.bytes i) n (((data w).drop n).take count) =
      (data w).take (n + count) := by
    have hlen : (disk.bytes i).length = n := by
      rw [htake, List.length_take]
      omega
    rw [List.take_add, ← htake]
    conv_lhs => rw [← hlen]
    rw [writeAt_end, hlen]
  have hother : ∀ p j, disk.names p = some j → p ≠ tmpPath (path w) →
      (disk.write i n (((data w).drop n).take count)).bytes j = disk.bytes j := by
    intro p j hj hp
    have hne : j ≠ i := by
      rintro rfl
      exact hp (h.names_inj _ _ _ hj hname)
    exact Function.update_of_ne hne _ _
  have hwriters : ∀ w' j m, Function.update writers w (.writing i (n + count)) w' = .writing j m →
      (w' = w ∧ j = i ∧ m = n + count) ∨ (w' ≠ w ∧ writers w' = .writing j m) := by
    intro w' j m hw'
    by_cases heq : w' = w
    · subst heq
      rw [Function.update_self] at hw'
      cases hw'
      exact Or.inl ⟨rfl, rfl, rfl⟩
    · rw [Function.update_of_ne heq] at hw'
      exact Or.inr ⟨heq, hw'⟩
  refine ⟨h.names_lt, h.names_inj, fun w' j m hw' => ?_, ?_, fun p j hj hp => ?_⟩
  · rcases hwriters w' j m hw' with ⟨rfl, rfl, rfl⟩ | ⟨hne, hold⟩
    · refine ⟨hname, hle, ?_⟩
      rw [← hgrow]
      exact Function.update_self _ _ _
    · obtain ⟨hname', hle', htake'⟩ := h.writing w' j m hold
      refine ⟨hname', hle', ?_⟩
      rw [hother _ j hname' fun hsame => hne (h.alone w' w j m i n hold hw hsame), htake']
  · intro w₁ w₂ i₁ n₁ i₂ n₂ h₁ h₂ hsame
    rcases hwriters w₁ i₁ n₁ h₁ with ⟨rfl, -, -⟩ | ⟨-, hold₁⟩
    · rcases hwriters w₂ i₂ n₂ h₂ with ⟨rfl, -, -⟩ | ⟨-, hold₂⟩
      · rfl
      · exact h.alone _ w₂ _ _ i₂ n₂ hw hold₂ hsame
    · rcases hwriters w₂ i₂ n₂ h₂ with ⟨rfl, -, -⟩ | ⟨-, hold₂⟩
      · exact h.alone w₁ _ i₁ n₁ _ _ hold₁ hw hsame
      · exact h.alone w₁ w₂ i₁ n₁ i₂ n₂ hold₁ hold₂ hsame
  · obtain ⟨w', hw', hwhole⟩ := h.whole p j hj hp
    exact ⟨w', hw', (hother p j hj (hp w)).trans hwhole⟩

/-- A write ends, and its temporary file stays. -/
theorem Tidy.stop [DecidableEq ι] {writers : ι → LocalWriter} (h : Tidy path data disk writers) :
    Tidy path data disk (Function.update writers w .ended) := by
  have hwriters : ∀ w' j m, Function.update writers w LocalWriter.ended w' = .writing j m →
      writers w' = .writing j m := by
    intro w' j m hw'
    by_cases heq : w' = w
    · rw [heq, Function.update_self] at hw'
      cases hw'
    · rw [Function.update_of_ne heq] at hw'
      exact hw'
  exact ⟨h.names_lt, h.names_inj, fun w' j m hw' => h.writing w' j m (hwriters w' j m hw'),
    fun w₁ w₂ i₁ n₁ i₂ n₂ h₁ h₂ => h.alone w₁ w₂ i₁ n₁ i₂ n₂ (hwriters _ _ _ h₁) (hwriters _ _ _ h₂),
    h.whole⟩

/-- The whole file gets the name of the path. -/
theorem Tidy.rename [DecidableEq ι] {writers : ι → LocalWriter} (h : Tidy path data disk writers)
    (hpaths : ∀ w w', path w ≠ tmpPath (path w')) (hw : writers w = .writing i (data w).length) :
    Tidy path data (disk.rename (tmpPath (path w)) (path w)) (Function.update writers w .ended) := by
  obtain ⟨hname, -, htake⟩ := h.writing w i _ hw
  rw [List.take_length] at htake
  have hnames : ∀ p j, (disk.rename (tmpPath (path w)) (path w)).names p = some j →
      (p = path w ∧ j = i) ∨ (p ≠ path w ∧ p ≠ tmpPath (path w) ∧ disk.names p = some j) := by
    intro p j hj
    rw [LocalDisk.rename, if_neg (Ne.symm (hpaths w w))] at hj
    dsimp only at hj
    by_cases htmp : p = tmpPath (path w)
    · rw [htmp, Function.update_self] at hj
      cases hj
    · rw [Function.update_of_ne htmp] at hj
      by_cases hp : p = path w
      · rw [hp, Function.update_self, hname] at hj
        cases hj
        exact Or.inl ⟨hp, rfl⟩
      · rw [Function.update_of_ne hp] at hj
        exact Or.inr ⟨hp, htmp, hj⟩
  have hbytes : (disk.rename (tmpPath (path w)) (path w)).bytes = disk.bytes := by
    rw [LocalDisk.rename, if_neg (Ne.symm (hpaths w w))]
  have hnext : (disk.rename (tmpPath (path w)) (path w)).next = disk.next := by
    rw [LocalDisk.rename, if_neg (Ne.symm (hpaths w w))]
  have hwriters : ∀ w' j m, Function.update writers w LocalWriter.ended w' = .writing j m →
      w' ≠ w ∧ writers w' = .writing j m := by
    intro w' j m hw'
    by_cases heq : w' = w
    · rw [heq, Function.update_self] at hw'
      cases hw'
    · rw [Function.update_of_ne heq] at hw'
      exact ⟨heq, hw'⟩
  refine ⟨fun p j hj => ?_, fun p q j hp hq => ?_, fun w' j m hw' => ?_, ?_, fun p j hj hp => ?_⟩
  · rw [hnext]
    rcases hnames p j hj with ⟨-, rfl⟩ | ⟨-, -, hold⟩
    · exact h.names_lt _ _ hname
    · exact h.names_lt p j hold
  · rcases hnames p j hp with ⟨rfl, rfl⟩ | ⟨hp₁, hp₂, holdp⟩
    · rcases hnames q j hq with ⟨rfl, -⟩ | ⟨-, hq₂, holdq⟩
      · rfl
      · exact absurd (h.names_inj _ _ j holdq hname) hq₂
    · rcases hnames q j hq with ⟨rfl, rfl⟩ | ⟨-, -, holdq⟩
      · exact absurd (h.names_inj _ _ _ holdp hname) hp₂
      · exact h.names_inj p q j holdp holdq
  · obtain ⟨hne, hold⟩ := hwriters w' j m hw'
    obtain ⟨hname', hle, htake'⟩ := h.writing w' j m hold
    refine ⟨?_, hle, by rw [hbytes, htake']⟩
    have hnetmp : tmpPath (path w') ≠ tmpPath (path w) := fun hsame =>
      hne (h.alone w' w j m i _ hold hw hsame)
    rw [LocalDisk.rename, if_neg (Ne.symm (hpaths w w))]
    dsimp only
    rw [Function.update_of_ne hnetmp, Function.update_of_ne (Ne.symm (hpaths w w')), hname']
  · intro w₁ w₂ i₁ n₁ i₂ n₂ h₁ h₂ hsame
    exact h.alone w₁ w₂ i₁ n₁ i₂ n₂ (hwriters _ _ _ h₁).2 (hwriters _ _ _ h₂).2 hsame
  · rw [hbytes]
    rcases hnames p j hj with ⟨rfl, rfl⟩ | ⟨-, -, hold⟩
    · exact ⟨w, rfl, htake⟩
    · exact h.whole p j hold hp

/-! ### Every run -/

section Runs

variable [DecidableEq ι] [DecidableEq κ]

/-- What every step that meets the condition keeps. -/
structure AllWhole (path : ι → Path) (data : ι → Bytes) (s : LocalCalls ι κ) : Prop where
  tidy : Tidy path data s.disk s.writers
  readers : ∀ r, ReadsWhole path data s.disk (s.readers r)

omit [DecidableEq ι] [DecidableEq κ] in
theorem AllWhole.start : AllWhole path data (start : LocalCalls ι κ) where
  tidy := by
    refine ⟨?_, ?_, ?_, ?_, ?_⟩
    · rintro p i ⟨⟩
    · rintro p q i ⟨⟩
    · rintro w i n ⟨⟩
    · rintro w w' i n i' n' ⟨⟩
    · rintro p i ⟨⟩
  readers := fun _ => trivial

omit [DecidableEq ι] in
/-- Only one reader goes on. -/
theorem AllWhole.setReader (h : AllWhole path data s) (r : κ) {reader : LocalReader}
    (hreader : ReadsWhole path data s.disk reader) : AllWhole path data (s.setReader r reader) where
  tidy := h.tidy
  readers := by
    intro r'
    show ReadsWhole path data s.disk (Function.update s.readers r reader r')
    by_cases heq : r' = r
    · rw [heq, Function.update_self]
      exact hreader
    · rw [Function.update_of_ne heq]
      exact h.readers r'

/-- **One step.** -/
theorem AllWhole.step (hpaths : ∀ w w', path w ≠ tmpPath (path w')) (h : AllWhole path data s)
    (hstep : Step path data s l s') (hok : Alone path s l) : AllWhole path data s' := by
  cases hstep with
  | @create w hw =>
    refine ⟨h.tidy.create (hok w rfl), fun r => (h.readers r).mono fun p i hset => ?_⟩
    refine ⟨hset.create, ?_⟩
    show (s.disk.create (tmpPath (path w))).1.bytes i = s.disk.bytes i
    unfold LocalDisk.create
    split
    · rename_i j hj
      have hne : i ≠ j := by
        rintro rfl
        exact hset.unreached w hj
      exact Function.update_of_ne hne _ _
    · exact Function.update_of_ne (Nat.ne_of_lt hset.old) _ _
  | @write w ino written count hw _ hle =>
    have hname := (h.tidy.writing w ino written hw).1
    refine ⟨h.tidy.write hw hle, fun r => (h.readers r).mono fun p i hset => ⟨hset.write hname, ?_⟩⟩
    have hne : i ≠ ino := by
      rintro rfl
      exact hset.unreached w hname
    exact Function.update_of_ne hne _ _
  | @rename w ino ino' hw _ =>
    refine ⟨h.tidy.rename hpaths hw, fun r => (h.readers r).mono fun p i hset => ?_⟩
    refine ⟨hset.rename hpaths, ?_⟩
    show (s.disk.rename (tmpPath (path w)) (path w)).bytes i = s.disk.bytes i
    rw [LocalDisk.rename, if_neg (Ne.symm (hpaths w w))]
  | @stop w => exact ⟨h.tidy.stop, h.readers⟩
  | @openFile r p ino _ hname =>
    exact h.setReader r fun hp => h.tidy.settled hname hp
  | @notFound r p _ _ => exact h.setReader r fun _ => Or.inl rfl
  | @metadata r p ino hr =>
    have hold := h.readers r
    rw [hr] at hold
    exact h.setReader r fun hp => ⟨hold hp, rfl, rfl⟩
  | @read r p ino size count got hr _ _ _ hlen =>
    have hold := h.readers r
    rw [hr] at hold
    refine h.setReader r fun hp => ?_
    obtain ⟨hset, hsize, hgot⟩ := hold hp
    refine ⟨hset, hsize, ?_⟩
    -- the next part of the file follows what was read
    have hmore : (((s.disk.bytes ino).drop got.length).take count).length = count := by
      rw [List.length_take, List.length_drop]
      omega
    rw [List.length_append, hmore, List.take_add, ← hgot]
  | @readFail r p ino size got hr hlt hshort =>
    have hold := h.readers r
    rw [hr] at hold
    refine h.setReader r fun hp => ?_
    obtain ⟨-, hsize, -⟩ := hold hp
    omega
  | @readDone r p ino size got hr hdone =>
    have hold := h.readers r
    rw [hr] at hold
    refine h.setReader r fun hp => ?_
    obtain ⟨hset, hsize, hgot⟩ := hold hp
    obtain ⟨w, hw, hwhole⟩ := hset.whole
    refine Or.inr ⟨w, hw, ?_⟩
    rw [hgot, List.take_of_length_le (by omega), hwhole]

/-- **Reads see whole writes.** In every run in which no write creates a temporary file that another
write has, and no path is a temporary file of another one, a read finds nothing or the contents of
one write of its path. -/
theorem reads_are_whole (path : ι → Path) (data : ι → Bytes) {ls : List (LocalLabel ι)}
    {s : LocalCalls ι κ} {r : κ} {p : Path} {result : LocalRead}
    (hpaths : ∀ w w', path w ≠ tmpPath (path w'))
    (hrun : Run (Guarded (Step path data) (Alone path)) start ls s)
    (hret : s.readers r = .returned p result) (hp : ∀ w, p ≠ tmpPath (path w)) :
    result = .notFound ∨ ∃ w, path w = p ∧ result = .bytes (data w) := by
  have hall : AllWhole path data s :=
    hrun.invariant (P := AllWhole path data)
      (fun _ _ _ h hstep => h.step hpaths hstep.1 hstep.2) AllWhole.start
  have hread := hall.readers r
  rw [hret] at hread
  exact hread hp

end Runs

end Whole

/-! ### Two writes of one path -/

/-- The path `a`. -/
def samplePath : Path := [.normal [97]]

/-- The path of each of two writes: `a` and `b`. -/
def samplePaths : Bool → Path
  | false => samplePath
  | true => [.normal [98]]

/-- Two writes at the same time. The file of the first one is opened before the second one is
renamed, and the read finds the one byte of the first. -/
theorem read_after_write :
    ∃ (s : LocalCalls Bool Unit) (ls : List (LocalLabel Bool)),
      Run (Guarded (Step samplePaths fun w => if w then [8, 9] else [7]) (Alone samplePaths)) start ls
          s ∧
        s.readers () = .returned samplePath (.bytes [7]) ∧
        ((LocalRead.bytes [7]) = .notFound ∨
          ∃ w : Bool, samplePaths w = samplePath ∧
            LocalRead.bytes [7] = .bytes (if w then [8, 9] else [7])) := by
  have hother : ∀ s : LocalCalls Bool Unit, Alone samplePaths s .other := by
    rintro s w ⟨⟩
  have hrun : ∃ (s : LocalCalls Bool Unit) (ls : List (LocalLabel Bool)),
      Run (Guarded (Step samplePaths fun w => if w then [8, 9] else [7]) (Alone samplePaths)) start ls
          s ∧
        s.readers () = .returned samplePath (.bytes [7]) := by
    refine ⟨_, _, ((((((((((Run.nil.snoc ⟨.create (w := false) rfl, ?_⟩).snoc
      ⟨.create (w := true) rfl, ?_⟩).snoc
      ⟨.write (w := true) (i := 1) (n := 0) (k := 1) rfl (by decide) (by decide),
        hother _⟩).snoc
      ⟨.write (w := false) (i := 0) (n := 0) (k := 1) rfl (by decide) (by decide),
        hother _⟩).snoc
      ⟨.write (w := true) (i := 1) (n := 1) (k := 1) rfl (by decide) (by decide),
        hother _⟩).snoc ⟨.rename (w := false) (i := 0) (j := 0) rfl rfl, hother _⟩).snoc
      ⟨.openFile (r := ()) (p := samplePath) (i := 0) rfl rfl, hother _⟩).snoc
      ⟨.rename (w := true) (i := 1) (j := 1) rfl rfl, hother _⟩).snoc
      ⟨.metadata (r := ()) rfl, hother _⟩).snoc
      ⟨.read (r := ()) (k := 1) rfl (by decide) (by decide) (by decide) (by decide),
        hother _⟩).snoc ⟨.readDone (r := ()) rfl (by decide), hother _⟩, rfl⟩
    · rintro w _ w' ino written ⟨⟩
    · -- the other write has the temporary file of another path
      rintro w ⟨⟩ w' ino written hwriting
      cases w' with
      | false => decide
      | true => cases hwriting
  obtain ⟨s, ls, hrun, hret⟩ := hrun
  exact ⟨s, ls, hrun, hret,
    reads_are_whole _ _ (fun w w' => by revert w w'; decide) hrun hret fun w => by revert w; decide⟩

/-- **Two writes of one path share the temporary file.** The second one truncates it before the
first one renames it, and a read finds no bytes, which neither of them has written. -/
theorem overlapping_writes_are_torn :
    ∃ (s : LocalCalls Bool Unit) (ls : List (LocalLabel Bool)),
      Run (Step (fun _ => samplePath) fun _ => [7]) start ls s ∧
        s.readers () = .returned samplePath (.bytes []) ∧
        ¬ (LocalRead.bytes [] = .notFound ∨
          ∃ _ : Bool, samplePath = samplePath ∧ LocalRead.bytes [] = .bytes [7]) := by
  refine ⟨_, _, ((((((Run.nil.snoc (.create (w := false) rfl)).snoc
    (.write (w := false) (i := 0) (n := 0) (k := 1) rfl (by decide) (by decide))).snoc
    (.create (w := true) rfl)).snoc (.rename (w := false) (i := 0) (j := 0) rfl rfl)).snoc
    (.openFile (r := ()) (p := samplePath) (i := 0) rfl rfl)).snoc
    (.metadata (r := ()) rfl)).snoc (.readDone (r := ()) rfl (by decide)), rfl, by decide⟩

end LocalCalls

end Mapache
