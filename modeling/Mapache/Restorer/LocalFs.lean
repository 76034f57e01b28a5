import Mapache.Restorer.HandleCache

/-!
# The local file system

A regular file is an inode, and several paths may have the same one; a symbolic link leads to
another path. `restore_packs` works on many files at once, so what it does to them is a list of
operations at paths (`Does`), in which those of one path are in their order.

An operation at one path is seen at another one only when the two share an inode: without that, a
path that nothing is done to stays as it is (`Does.untouched`), and what is at a path is what its
own operations leave (`Does.agrees`).
-/

set_option autoImplicit false

namespace Mapache

open Lib

/-- What is at a path. -/
inductive DirEntry where
  | absent
  | file (ino : Nat)
  | symlink (target : Bytes)
  | directory
  deriving DecidableEq

/-- The local file system. -/
structure LocalFs where
  entry : Path → DirEntry
  bytes : Nat → Bytes
  mtime : Nat → Int

namespace LocalFs

/-- Put an entry at a path. -/
def setEntry (fs : LocalFs) (path : Path) (entry : DirEntry) : LocalFs :=
  { fs with entry := Function.update fs.entry path entry }

/-- Give an inode other bytes, at the time `now`. -/
def change (fs : LocalFs) (ino : Nat) (bytes : Bytes) (now : Int) : LocalFs :=
  { fs with
    bytes := Function.update fs.bytes ino bytes
    mtime := Function.update fs.mtime ino now }

/-- Set the time of an inode. -/
def setTime (fs : LocalFs) (ino : Nat) (time : Int) : LocalFs :=
  { fs with mtime := Function.update fs.mtime ino time }

/-- The path that is reached from a path, where `leadsTo` is the path that the target of a link
stands for. It is `none` where nothing is there or too many links are followed. -/
def resolve (leadsTo : Path → Bytes → Path) (fs : LocalFs) : Nat → Path → Option Path
  | 0, _ => none
  | n + 1, path =>
    match fs.entry path with
    | .absent => none
    | .symlink target => fs.resolve leadsTo n (leadsTo path target)
    | .file _ | .directory => some path

/-- The number of links that the kernel follows. -/
def maxLinks : Nat := 40

/-- What a path leads to. -/
def follow (leadsTo : Path → Bytes → Path) (fs : LocalFs) (path : Path) : Option Path :=
  fs.resolve leadsTo (maxLinks + 1) path

/-- What `restore_packs` sees at a path. -/
def view (leadsTo : Path → Bytes → Path) (fs : LocalFs) (path : Path) : LocalEntry :=
  match fs.entry path with
  | .absent => .absent
  | .file i => .file (fs.bytes i)
  | .symlink _ => .symlink (fs.follow leadsTo path).isSome
  | .directory => .directory

/-- An operation at a path. A file that is created gets the inode `ino`, and one that is changed the
time `now`. -/
def apply (fs : LocalFs) (path : Path) (ino : Nat) (now : Int) (op : FileOp) : LocalFs :=
  match fs.entry path with
  | .file i =>
    match op.apply (.file (fs.bytes i)) with
    | .file bytes => fs.change i bytes now
    | _ => fs.setEntry path .absent
  | .absent =>
    match op.apply .absent with
    | .file bytes => (fs.setEntry path (.file ino)).change ino bytes now
    | _ => fs
  | .symlink _ | .directory => if op = .remove then fs.setEntry path .absent else fs

/-- The operations are done one after the other; a file that is created gets an inode that no path
has. -/
inductive Does : LocalFs → List (Path × FileOp) → LocalFs → Prop where
  | nil {fs : LocalFs} : Does fs [] fs
  | cons {fs fs' : LocalFs} {path : Path} {op : FileOp} {ino : Nat} {now : Int}
      {log : List (Path × FileOp)} :
      (∀ q, fs.entry q ≠ .file ino) → Does (fs.apply path ino now op) log fs' →
      Does fs ((path, op) :: log) fs'

/-- The operations at one path. -/
def opsAt (path : Path) (log : List (Path × FileOp)) : List FileOp :=
  (log.filter fun x => x.1 = path).map Prod.snd

/-- Two paths have one inode. -/
def Shares (fs : LocalFs) (p q : Path) : Prop := ∃ i, fs.entry p = .file i ∧ fs.entry q = .file i

instance (fs : LocalFs) (p q : Path) : Decidable (fs.Shares p q) :=
  match h : fs.entry p with
  | .file i => decidable_of_iff (fs.entry q = .file i)
      ⟨fun hq => ⟨i, h, hq⟩, fun ⟨j, hj, hq⟩ => by rwa [DirEntry.file.inj (h.symm.trans hj)]⟩
  | .absent | .symlink _ | .directory => isFalse fun ⟨i, hi, _⟩ => by rw [h] at hi; cases hi

/-- The operations on the file at a path, through all of its names. -/
def opsOn (fs : LocalFs) (path : Path) (log : List (Path × FileOp)) : List FileOp :=
  (log.filter fun x => x.1 = path ∨ fs.Shares path x.1).map Prod.snd

/-- Nothing has changed at a path. -/
structure Untouched (fs fs' : LocalFs) (path : Path) : Prop where
  entry_eq : fs'.entry path = fs.entry path
  bytes_eq : ∀ i, fs.entry path = .file i → fs'.bytes i = fs.bytes i
  mtime_eq : ∀ i, fs.entry path = .file i → fs'.mtime i = fs.mtime i

/-- A path has what `restore_packs` takes to be there, up to where a link leads. -/
def Agrees (fs : LocalFs) (path : Path) : LocalEntry → Prop
  | .absent => fs.entry path = .absent
  | .file bytes => ∃ i, fs.entry path = .file i ∧ fs.bytes i = bytes
  | .symlink _ => ∃ target, fs.entry path = .symlink target
  | .directory => fs.entry path = .directory

section Lemmas

variable {fs fs' fs'' : LocalFs} {path p q : Path} {ino i : Nat} {now : Int} {op : FileOp}
  {log : List (Path × FileOp)} {entry : LocalEntry} {leadsTo : Path → Bytes → Path}

@[simp] theorem setEntry_entry (fs : LocalFs) (path : Path) (e : DirEntry) :
    (fs.setEntry path e).entry = Function.update fs.entry path e := rfl

@[simp] theorem setEntry_bytes (fs : LocalFs) (path : Path) (e : DirEntry) :
    (fs.setEntry path e).bytes = fs.bytes := rfl

@[simp] theorem change_entry (fs : LocalFs) (ino : Nat) (bytes : Bytes) (now : Int) :
    (fs.change ino bytes now).entry = fs.entry := rfl

@[simp] theorem change_bytes (fs : LocalFs) (ino : Nat) (bytes : Bytes) (now : Int) :
    (fs.change ino bytes now).bytes = Function.update fs.bytes ino bytes := rfl

@[simp] theorem change_mtime (fs : LocalFs) (ino : Nat) (bytes : Bytes) (now : Int) :
    (fs.change ino bytes now).mtime = Function.update fs.mtime ino now := rfl

@[simp] theorem setTime_mtime (fs : LocalFs) (ino : Nat) (time : Int) :
    (fs.setTime ino time).mtime = Function.update fs.mtime ino time := rfl

/-- A path that is no link leads to itself. -/
theorem follow_of_file (h : fs.entry path = .file i) : fs.follow leadsTo path = some path := by
  rw [follow, maxLinks, resolve, h]

theorem agrees_view : fs.Agrees path (fs.view leadsTo path) := by
  unfold view
  split
  · rename_i h
    exact h
  · rename_i i h
    exact ⟨i, h, rfl⟩
  · rename_i target h
    exact ⟨target, h⟩
  · rename_i h
    exact h

theorem Untouched.refl (fs : LocalFs) (path : Path) : Untouched fs fs path :=
  ⟨rfl, fun _ _ => rfl, fun _ _ => rfl⟩

theorem Untouched.trans (h : Untouched fs fs' path) (h' : Untouched fs' fs'' path) :
    Untouched fs fs'' path := by
  refine ⟨h'.entry_eq.trans h.entry_eq, fun i hi => ?_, fun i hi => ?_⟩
  · have hi' : fs'.entry path = .file i := h.entry_eq.trans hi
    exact (h'.bytes_eq i hi').trans (h.bytes_eq i hi)
  · have hi' : fs'.entry path = .file i := h.entry_eq.trans hi
    exact (h'.mtime_eq i hi').trans (h.mtime_eq i hi)

/-- Another path gets an entry. -/
theorem untouched_setEntry {e : DirEntry} (h : q ≠ path) : Untouched fs (fs.setEntry path e) q := by
  refine ⟨?_, fun i _ => rfl, fun i _ => rfl⟩
  rw [setEntry_entry, Function.update_of_ne h]

/-! ## One operation -/

theorem apply_entry_of_ne (h : q ≠ path) : (fs.apply path ino now op).entry q = fs.entry q := by
  unfold apply
  split
  · split
    · rfl
    · rw [setEntry_entry, Function.update_of_ne h]
  · split
    · rw [change_entry, setEntry_entry, Function.update_of_ne h]
    · rfl
  all_goals
    split
    · rw [setEntry_entry, Function.update_of_ne h]
    · rfl

/-- An operation changes the inode of its path, or the one of the file that it creates. -/
theorem apply_inode (hpath : fs.entry path ≠ .file i) (hino : i ≠ ino) :
    (fs.apply path ino now op).bytes i = fs.bytes i ∧
      (fs.apply path ino now op).mtime i = fs.mtime i := by
  unfold apply
  split
  · rename_i j hj
    have hne : i ≠ j := by
      rintro rfl
      exact hpath hj
    split
    · rw [change_bytes, change_mtime, Function.update_of_ne hne, Function.update_of_ne hne]
      exact ⟨rfl, rfl⟩
    · exact ⟨rfl, rfl⟩
  · split
    · rw [change_bytes, change_mtime, Function.update_of_ne hino, Function.update_of_ne hino]
      exact ⟨rfl, rfl⟩
    · exact ⟨rfl, rfl⟩
  all_goals
    split <;> exact ⟨rfl, rfl⟩

/-- The path of an operation keeps its inode, has the new one, or is not a file. -/
theorem apply_entry_self (h : (fs.apply path ino now op).entry path = .file i) :
    fs.entry path = .file i ∨ i = ino := by
  unfold apply at h
  split at h
  · rename_i j hj
    split at h
    · exact Or.inl h
    · simp at h
  · split at h
    · simp only [change_entry, setEntry_entry, Function.update_self, DirEntry.file.injEq] at h
      exact Or.inr h.symm
    · exact Or.inl h
  all_goals
    split at h
    · simp at h
    · exact Or.inl h

/-- No two paths come to share an inode. -/
theorem not_shares_apply (hfresh : ∀ q, fs.entry q ≠ .file ino) (hne : p ≠ q) (h : ¬ fs.Shares p q) :
    ¬ (fs.apply path ino now op).Shares p q := by
  -- a path has its old inode or the new one
  have hold : ∀ r i, (fs.apply path ino now op).entry r = .file i →
      fs.entry r = .file i ∨ (r = path ∧ i = ino) := by
    intro r i hr
    by_cases heq : r = path
    · subst heq
      exact (apply_entry_self hr).imp_right fun hino => ⟨rfl, hino⟩
    · rw [apply_entry_of_ne heq] at hr
      exact Or.inl hr
  rintro ⟨i, hp, hq⟩
  rcases hold p i hp with hp' | ⟨rfl, rfl⟩
  · rcases hold q i hq with hq' | ⟨-, rfl⟩
    · exact h ⟨i, hp', hq'⟩
    · exact hfresh p hp'
  · rcases hold q i hq with hq' | ⟨rfl, -⟩
    · exact hfresh q hq'
    · exact hne rfl

/-- An operation elsewhere. -/
theorem untouched_apply (hfresh : ∀ q, fs.entry q ≠ .file ino) (hne : p ≠ path)
    (h : ¬ fs.Shares p path) : Untouched fs (fs.apply path ino now op) p := by
  have hinode : ∀ i, fs.entry p = .file i → fs.entry path ≠ .file i ∧ i ≠ ino := by
    intro i hi
    refine ⟨fun hpath => h ⟨i, hi, hpath⟩, ?_⟩
    rintro rfl
    exact hfresh p hi
  exact ⟨apply_entry_of_ne hne, fun i hi => (apply_inode (hinode i hi).1 (hinode i hi).2).1,
    fun i hi => (apply_inode (hinode i hi).1 (hinode i hi).2).2⟩

theorem Agrees.untouched (h : fs.Agrees p entry) (hsame : Untouched fs fs' p) :
    fs'.Agrees p entry := by
  cases entry with
  | absent => exact hsame.entry_eq.trans h
  | file bytes =>
    obtain ⟨i, hi, hbytes⟩ := h
    exact ⟨i, hsame.entry_eq.trans hi, (hsame.bytes_eq i hi).trans hbytes⟩
  | symlink resolves =>
    obtain ⟨target, htarget⟩ := h
    exact ⟨target, hsame.entry_eq.trans htarget⟩
  | directory => exact hsame.entry_eq.trans h

/-- An operation at the path itself. -/
theorem Agrees.apply (h : fs.Agrees path entry) :
    (fs.apply path ino now op).Agrees path (op.apply entry) := by
  cases entry with
  | absent =>
    rw [Agrees] at h
    unfold LocalFs.apply
    rw [h]
    cases op <;> simp [FileOp.apply, Agrees, h]
  | file bytes =>
    obtain ⟨i, hi, rfl⟩ := h
    unfold LocalFs.apply
    rw [hi]
    cases op <;> simp [FileOp.apply, Agrees, hi]
  | symlink resolves =>
    obtain ⟨target, htarget⟩ := h
    unfold LocalFs.apply
    rw [htarget]
    cases op <;> simp [FileOp.apply, Agrees, htarget]
  | directory =>
    rw [Agrees] at h
    unfold LocalFs.apply
    rw [h]
    cases op <;> simp [FileOp.apply, Agrees, h]

/-! ## Many operations -/

theorem Does.not_shares (h : Does fs log fs') (hne : p ≠ q) (hpq : ¬ fs.Shares p q) :
    ¬ fs'.Shares p q := by
  induction h with
  | nil => exact hpq
  | cons hfresh _ ih => exact ih (not_shares_apply hfresh hne hpq)

/-- **A path that nothing is done to stays as it is**, when it shares its inode with none of the
paths of the operations. -/
theorem Does.untouched (h : Does fs log fs') (hpath : p ∉ log.map Prod.fst)
    (halone : ∀ q ∈ log.map Prod.fst, ¬ fs.Shares p q) : Untouched fs fs' p := by
  induction h with
  | nil => exact Untouched.refl _ _
  | @cons fs fs' path op ino now log hfresh hrest ih =>
    rw [List.map_cons, List.mem_cons, not_or] at hpath
    have hne : p ≠ path := hpath.1
    refine (untouched_apply hfresh hne (halone path List.mem_cons_self)).trans (ih hpath.2 ?_)
    intro q hq
    have hpq : p ≠ q := by
      rintro rfl
      exact hpath.2 hq
    exact not_shares_apply hfresh hpq (halone q (List.mem_cons_of_mem _ hq))

/-- **What is at a path is what its own operations leave**, when it shares its inode with none of
the other paths of the operations. -/
theorem Does.agrees (h : Does fs log fs')
    (halone : ∀ q ∈ log.map Prod.fst, q ≠ p → ¬ fs.Shares p q) (hp : fs.Agrees p entry) :
    fs'.Agrees p (contentOf entry (opsAt p log)) := by
  induction h generalizing entry with
  | nil => exact hp
  | @cons fs fs' path op ino now log hfresh hrest ih =>
    have htail : ∀ q ∈ log.map Prod.fst, q ≠ p → ¬ (fs.apply path ino now op).Shares p q := by
      intro q hq hqp
      exact not_shares_apply hfresh (Ne.symm hqp) (halone q (List.mem_cons_of_mem _ hq) hqp)
    by_cases heq : path = p
    · subst heq
      have hops : opsAt path ((path, op) :: log) = op :: opsAt path log := by simp [opsAt]
      rw [hops]
      exact ih htail hp.apply
    · have hops : opsAt p ((path, op) :: log) = opsAt p log := by simp [opsAt, heq]
      rw [hops]
      refine ih htail (hp.untouched (untouched_apply hfresh (Ne.symm heq) ?_))
      exact halone path List.mem_cons_self heq

/-- What is done later. -/
theorem Does.append {log' : List (Path × FileOp)} (h : Does fs log fs') (h' : Does fs' log' fs'') :
    Does fs (log ++ log') fs'' := by
  induction h with
  | nil => exact h'
  | cons hfresh _ ih => exact .cons hfresh (ih h')

theorem opsAt_append (path : Path) (log log' : List (Path × FileOp)) :
    opsAt path (log ++ log') = opsAt path log ++ opsAt path log' := by
  rw [opsAt, List.filter_append, List.map_append]
  rfl

/-- When the file shares its inode with none of the other paths of the operations, those on it are
those at its path. -/
theorem opsOn_eq_opsAt (halone : ∀ q ∈ log.map Prod.fst, q ≠ p → ¬ fs.Shares p q) :
    fs.opsOn p log = opsAt p log := by
  rw [opsOn, opsAt]
  congr 1
  refine List.filter_congr fun x hx => ?_
  by_cases heq : x.1 = p
  · simp [heq]
  · simp [heq, halone x.1 (List.mem_map_of_mem (f := Prod.fst) hx) heq]

/-- Operations at one path can be done, where some inodes are free. -/
theorem exists_does (path : Path) (ops : List FileOp) (fs : LocalFs) (k : Nat)
    (hfresh : ∀ q i, fs.entry q = .file i → i < k) :
    ∃ fs', fs.Does (ops.map fun op => (path, op)) fs' := by
  induction ops generalizing fs k with
  | nil => exact ⟨fs, .nil⟩
  | cons op ops ih =>
    have hnew : ∀ q, fs.entry q ≠ .file k := fun q hq => Nat.lt_irrefl k (hfresh q k hq)
    have hnext : ∀ q i, (fs.apply path k 0 op).entry q = .file i → i < k + 1 := by
      intro q i hq
      by_cases hpath : q = path
      · subst hpath
        rcases apply_entry_self hq with hold | rfl
        · exact Nat.lt_succ_of_lt (hfresh q i hold)
        · exact Nat.lt_succ_self i
      · rw [apply_entry_of_ne hpath] at hq
        exact Nat.lt_succ_of_lt (hfresh q i hq)
    obtain ⟨fs', hdoes⟩ := ih (fs.apply path k 0 op) (k + 1) hnext
    exact ⟨fs', .cons hnew hdoes⟩

/-- **Operations at the names of one inode all change its bytes**, one after the other. -/
theorem exists_does_of_names (log : List (Path × FileOp)) (fs : LocalFs)
    (hlog : ∀ x ∈ log, fs.entry x.1 = .file i ∧ x.2 ≠ .remove) (hfresh : ∀ q, fs.entry q ≠ .file ino) :
    ∃ fs', fs.Does log fs' ∧ fs'.entry = fs.entry ∧
      contentOf (.file (fs.bytes i)) (log.map Prod.snd) = .file (fs'.bytes i) := by
  induction log generalizing fs with
  | nil => exact ⟨fs, .nil, rfl, rfl⟩
  | cons x log ih =>
    obtain ⟨hentry, hremove⟩ := hlog x List.mem_cons_self
    obtain ⟨bytes, hbytes⟩ : ∃ bytes, x.2.apply (.file (fs.bytes i)) = .file bytes := by
      cases hop : x.2 with
      | remove => exact absurd hop hremove
      | truncate | setLen | write => exact ⟨_, rfl⟩
    have happly : fs.apply x.1 ino 0 x.2 = fs.change i bytes 0 := by
      rw [LocalFs.apply, hentry]
      dsimp only
      rw [hbytes]
    obtain ⟨fs', hdoes, hsame, hcontent⟩ := ih (fs.change i bytes 0)
      (fun y hy => hlog y (List.mem_cons_of_mem _ hy)) hfresh
    rw [← happly] at hdoes
    refine ⟨fs', .cons hfresh hdoes, hsame, ?_⟩
    rw [change_bytes, Function.update_self] at hcontent
    rw [List.map_cons, contentOf, List.foldl_cons, hbytes]
    exact hcontent

theorem opsAt_map (path q : Path) (ops : List FileOp) :
    opsAt q (ops.map fun op => (path, op)) = if path = q then ops else [] := by
  split
  · rename_i hpath
    simp [opsAt, List.filter_map, Function.comp_def, hpath]
  · rename_i hpath
    simp [opsAt, List.filter_map, Function.comp_def, hpath]

theorem opsAt_eq_nil : opsAt path log = [] ↔ path ∉ log.map Prod.fst := by
  rw [opsAt, List.map_eq_nil_iff, List.filter_eq_nil_iff]
  simp only [decide_eq_true_eq, List.mem_map, not_exists, not_and]

end Lemmas

end LocalFs

end Mapache
