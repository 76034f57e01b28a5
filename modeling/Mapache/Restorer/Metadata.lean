import Mapache.Lib.UpdateOrder
import Mapache.Restorer.Delete

/-!
# The metadata of a restore

`Restorer::restore_metadata`: a second stream over the snapshot gives every node that is in place its
owner, mode, times and attributes. The nodes come to concurrent tasks in any order, which set the
metadata of everything but directories at once; the directories are set afterwards, those with the
longest paths first.

A directory that has its metadata may no longer let anyone in, and then nothing can be set below it.
`restore_metadata_sets_all` says that this never happens: whatever the order of the tasks and
whatever the sort does with paths of one length, everything that was in place gets its metadata.
-/

set_option autoImplicit false

namespace Mapache

open Lib

/-! ## The disk -/

/-- What lies where on the disk, by inode numbers. A directory has one path, and only directories
have something below them. -/
structure RestoreDisk where
  ino : Path → Option Nat
  isDir : Nat → Bool
  empty : ino [] = none
  above : ∀ {p q : Path} {i : Nat}, StrictPrefix p q → p ≠ [] → ino q = some i →
    ∃ j, ino p = some j ∧ isDir j = true
  own : ∀ {p q : Path} {i : Nat}, ino p = some i → ino q = some i → isDir i = true → p = q

/-- The length of a path in bytes. -/
def osLen (path : Path) : Nat := (PathBuf.render (StdPath.embed path)).length

section Definitions

variable {α : Type} (disk : RestoreDisk) (searchable : α → Bool) (setAttrs : Node → α → α)

/-- `path_exists`: the directories on the way can be searched, and something is there. -/
def RestoreDisk.pathExists (attrs : Nat → α) (path : Path) : Bool :=
  (disk.ino path).isSome &&
    (List.range path.length).all fun n =>
      (disk.ino (path.take n)).all fun i => searchable (attrs i)

/-- The inode that is at the place of a node. -/
def RestoreDisk.inode (e : Path × Node) : Nat := (disk.ino e.1).getD 0

/-- `try_restore_node_metadata`, if the path exists. -/
def tryRestoreNodeMetadata (attrs : Nat → α) (e : Path × Node) : Nat → α :=
  tryUpdate disk.inode (fun e => setAttrs e.2)
    (fun attrs e => disk.pathExists searchable attrs e.1) attrs e

/-- The place of what the stream yields. Nothing is done for an error, nor for a path outside of the
prefix that is stripped. -/
def restoreTarget (target : Path) (stripPrefix : Option Path) :
    Except StreamError StreamNodeInfo → Option (Path × Node)
  | .ok (path, some item) => (restorePath target stripPrefix path).map fun place => (place, item.node)
  | _ => none

/-- The loop over the directories. It comes to its end, or with `MapacheError::Interrupted` to
`false`. `shutdown` is the signal at each check. -/
def restoreDirs (shutdown : Nat → Bool) : Nat → List (Path × Node) → (Nat → α) → (Nat → α) × Bool
  | _, [], attrs => (attrs, true)
  | n, e :: dirs, attrs =>
    if shutdown n then (attrs, false)
    else restoreDirs shutdown (n + 1) dirs (tryRestoreNodeMetadata disk searchable setAttrs attrs e)

/-- `restore_metadata`: the attributes on the disk afterwards, and whether it returns `Ok`. `order` is
what the stream yields, in the order in which the tasks come to it, and `sortDirs` is
`sort_unstable_by_key`. -/
def restoreMetadata (dryRun : Bool) (target : Path) (stripPrefix : Option Path)
    (order : List (Except StreamError StreamNodeInfo))
    (sortDirs : List (Path × Node) → List (Path × Node)) (shutdown : Nat → Bool)
    (attrs : Nat → α) : (Nat → α) × Bool :=
  if dryRun then (attrs, true)
  else
    let places := order.filterMap (restoreTarget target stripPrefix)
    let others := places.filter fun e => !e.2.isDir
    let dirs := places.filter fun e => e.2.isDir
    restoreDirs disk searchable setAttrs shutdown 0 (sortDirs dirs)
      (others.foldl (tryRestoreNodeMetadata disk searchable setAttrs) attrs)

end Definitions

/-! ## Paths and their lengths -/

/-- An absolute path of proper names. -/
def ProperPath (path : Path) : Prop :=
  ∃ names : List Bytes, path = .rootDir :: names.map .normal ∧ ∀ name ∈ names, SingleNormal name

theorem length_push_lt {path name : Bytes} (h : SingleNormal name) :
    path.length < (PathBuf.push path name).length := by
  have hname : 0 < name.length := List.length_pos_iff.mpr h.1
  rw [PathBuf.push, PathBuf.not_isAbsolute_of_singleNormal h]
  split
  · contradiction
  · split
    · rw [List.length_append, List.length_cons]
      omega
    · rw [List.length_append]
      omega

theorem length_extend_le {path : Bytes} {names : List Bytes}
    (h : ∀ name ∈ names, SingleNormal name) :
    path.length ≤ (PathBuf.extend path (names.map .normal)).length := by
  induction names generalizing path with
  | nil => exact le_rfl
  | cons name names ih =>
    rw [List.forall_mem_cons] at h
    exact (length_push_lt h.1).le.trans (ih h.2)

theorem embed_names (names : List Bytes) :
    StdPath.embed (names.map .normal) = names.map .normal := by
  rw [StdPath.embed, List.map_map]
  rfl

/-- **A path is longer than those above it.** -/
theorem osLen_lt {p q : Path} (hlt : StrictPrefix p q) (hne : p ≠ []) (hq : ProperPath q) :
    osLen p < osLen q := by
  obtain ⟨names, rfl, hnames⟩ := hq
  obtain ⟨⟨rest, hrest⟩, hproper⟩ := hlt
  cases p with
  | nil => exact absurd rfl hne
  | cons c p =>
    obtain ⟨rfl, hnames_eq⟩ := List.cons.inj hrest
    obtain ⟨own, below, rfl, rfl, rfl⟩ := List.append_eq_map_iff.mp hnames_eq
    cases below with
    | nil => exact absurd (by simp) hproper
    | cons name below =>
      have hname := hnames name (List.mem_append_right _ List.mem_cons_self)
      have hbelow : ∀ n ∈ below, SingleNormal n := fun n hn =>
        hnames n (List.mem_append_right _ (List.mem_cons_of_mem _ hn))
      -- the rest of the names is pushed onto the shorter path
      have hrender : PathBuf.render (StdPath.embed (.rootDir :: (own ++ name :: below).map .normal)) =
          PathBuf.extend (PathBuf.push
            (PathBuf.render (StdPath.embed (.rootDir :: own.map .normal))) name)
            (below.map .normal) := by
        have hcons : ∀ l : List Bytes, StdPath.embed (.rootDir :: l.map .normal) =
            .rootDir :: l.map .normal := fun l => congrArg _ (embed_names l)
        rw [hcons, hcons, List.map_append, List.map_cons, PathBuf.render, PathBuf.render,
          PathBuf.extend, PathBuf.extend, PathBuf.extend, ← List.cons_append, List.foldl_append]
        rfl
      rw [osLen, osLen, hrender]
      exact (length_push_lt hname).trans_le (length_extend_le hbelow)

/-! ## What is in place -/

section Restored

variable {α : Type} {disk : RestoreDisk} {searchable : α → Bool} {setAttrs : Node → α → α}
  {attrs : Nat → α} {places : List (Path × Node)} {e : Path × Node} {i : Nat}

/-- The nodes were restored: something of the kind of the node is at each place, and it can be
reached. -/
structure InPlace (disk : RestoreDisk) (searchable : α → Bool) (attrs : Nat → α)
    (places : List (Path × Node)) : Prop where
  proper : ∀ e ∈ places, ProperPath e.1
  kind : ∀ e ∈ places, ∀ i, disk.ino e.1 = some i → disk.isDir i = e.2.isDir
  reached : ∀ e ∈ places, disk.pathExists searchable attrs e.1 = true

/-- To reach a place takes the directories on the way to it. -/
def RestoreDisk.Needs (disk : RestoreDisk) (e : Path × Node) (i : Nat) : Prop :=
  ∃ n < e.1.length, disk.ino (e.1.take n) = some i

theorem RestoreDisk.pathExists_congr {attrs attrs' : Nat → α}
    (h : ∀ i, disk.Needs e i → attrs i = attrs' i) :
    disk.pathExists searchable attrs e.1 = disk.pathExists searchable attrs' e.1 := by
  unfold RestoreDisk.pathExists
  congr 1
  rw [Bool.eq_iff_iff, List.all_eq_true, List.all_eq_true]
  have hsame : ∀ n ∈ List.range e.1.length,
      (disk.ino (e.1.take n)).all (fun i => searchable (attrs i)) =
        (disk.ino (e.1.take n)).all fun i => searchable (attrs' i) := by
    intro n hn
    cases hino : disk.ino (e.1.take n) with
    | none => rfl
    | some i => simp [h i ⟨n, List.mem_range.mp hn, hino⟩]
  exact ⟨fun hall n hn => hsame n hn ▸ hall n hn, fun hall n hn => (hsame n hn).symm ▸ hall n hn⟩

theorem InPlace.ino_eq (h : InPlace disk searchable attrs places) (he : e ∈ places) :
    disk.ino e.1 = some (disk.inode e) := by
  have hreached := h.reached e he
  rw [RestoreDisk.pathExists, Bool.and_eq_true] at hreached
  obtain ⟨i, hi⟩ := Option.isSome_iff_exists.mp hreached.1
  rw [RestoreDisk.inode, hi, Option.getD_some]

/-- What is needed on the way is a directory, and its path is above the place. -/
theorem RestoreDisk.Needs.isDir (h : disk.Needs e i) (he : (disk.ino e.1).isSome = true) :
    disk.isDir i = true ∧ ∃ p, p ≠ [] ∧ StrictPrefix p e.1 ∧ disk.ino p = some i := by
  obtain ⟨n, hn, hino⟩ := h
  obtain ⟨j, hj⟩ := Option.isSome_iff_exists.mp he
  have hne : e.1.take n ≠ [] := by
    intro hnil
    rw [hnil, disk.empty] at hino
    cases hino
  have hlt : StrictPrefix (e.1.take n) e.1 :=
    .of_length_lt (List.take_prefix _ _) (by rw [List.length_take]; omega)
  obtain ⟨i', hi', hdir⟩ := disk.above hlt hne hj
  rw [hino] at hi'
  cases hi'
  exact ⟨hdir, _, hne, hlt, hino⟩

/-- **No order of the tasks gets in the way**: nothing that is set before is needed on the way to
what is set after it. -/
theorem InPlace.order (h : InPlace disk searchable attrs places) {others dirs : List (Path × Node)}
    (hothers : ∀ e ∈ others, e ∈ places ∧ e.2.isDir = false)
    (hdirs : ∀ e ∈ dirs, e ∈ places ∧ e.2.isDir = true)
    (hsorted : dirs.Pairwise fun a b => osLen b.1 ≤ osLen a.1) :
    (others ++ dirs).Pairwise fun u u' => ¬ disk.Needs u' (disk.inode u) := by
  have hsome : ∀ e ∈ places, (disk.ino e.1).isSome = true := fun e he => by
    rw [h.ino_eq he]
    rfl
  -- what is not a directory is not on the way to anything
  have hfile : ∀ u ∈ others, ∀ u' ∈ places, ¬ disk.Needs u' (disk.inode u) := by
    intro u hu u' hu' hneeds
    have hkind := h.kind u (hothers u hu).1 _ (h.ino_eq (hothers u hu).1)
    rw [(hothers u hu).2, (hneeds.isDir (hsome u' hu')).1] at hkind
    cases hkind
  refine List.pairwise_append.mpr ⟨?_, ?_, ?_⟩
  · exact List.pairwise_of_forall_mem_list fun u hu u' hu' => hfile u hu u' (hothers u' hu').1
  · refine hsorted.imp_of_mem fun {u u'} hu hu' hle hneeds => ?_
    -- a directory that is needed has the shorter path
    obtain ⟨hdir, p, hne, hlt, hino⟩ := hneeds.isDir (hsome u' (hdirs u' hu').1)
    have hp : p = u.1 := disk.own hino (h.ino_eq (hdirs u hu).1) hdir
    rw [hp] at hlt hne
    have hlen := osLen_lt hlt hne (h.proper u' (hdirs u' hu').1)
    omega
  · exact fun u hu u' hu' => hfile u hu u' (hdirs u' hu').1

/-! ## The loops -/

variable (disk searchable setAttrs) in
/-- The loop over the directories gets through a beginning of them, and through all of them when it
is not interrupted. -/
theorem restoreDirs_spec (shutdown : Nat → Bool) (n : Nat) (dirs : List (Path × Node))
    (attrs : Nat → α) :
    ∃ done, done <+: dirs ∧
      (restoreDirs disk searchable setAttrs shutdown n dirs attrs).1 =
        done.foldl (tryRestoreNodeMetadata disk searchable setAttrs) attrs ∧
      ((restoreDirs disk searchable setAttrs shutdown n dirs attrs).2 = true → done = dirs) := by
  induction dirs generalizing n attrs with
  | nil => exact ⟨[], List.prefix_refl _, rfl, fun _ => rfl⟩
  | cons e dirs ih =>
    rw [restoreDirs]
    split
    · exact ⟨[], List.nil_prefix, rfl, fun h => by cases h⟩
    · obtain ⟨done, hbegin, hattrs, hall⟩ := ih (n + 1)
        (tryRestoreNodeMetadata disk searchable setAttrs attrs e)
      refine ⟨e :: done, List.cons_prefix_cons.mpr ⟨rfl, hbegin⟩, hattrs, fun h => ?_⟩
      rw [hall h]

/-- All nodes of the list set the same: once is enough. -/
theorem foldl_setAttrs {l : List (Path × Node)} {f : α → α} {a : α} (hf : ∀ a, f (f a) = f a)
    (hall : ∀ u ∈ l, setAttrs u.2 = f) (hne : l ≠ []) :
    l.foldl (fun a u => setAttrs u.2 a) a = f a := by
  induction l generalizing a with
  | nil => exact absurd rfl hne
  | cons u l ih =>
    rw [List.foldl_cons, hall u List.mem_cons_self]
    by_cases hnil : l = []
    · rw [hnil, List.foldl_nil]
    · rw [ih (fun u' hu' => hall u' (List.mem_cons_of_mem _ hu')) hnil, hf]

variable (setAttrs) in
/-- The attributes after the nodes of a list that have their metadata set in this order. -/
theorem InPlace.foldl_eq (h : InPlace disk searchable attrs places)
    {others dirs : List (Path × Node)} (hothers : ∀ e ∈ others, e ∈ places ∧ e.2.isDir = false)
    (hdirs : ∀ e ∈ dirs, e ∈ places ∧ e.2.isDir = true)
    (hsorted : dirs.Pairwise fun a b => osLen b.1 ≤ osLen a.1) (i : Nat) :
    (others ++ dirs).foldl (tryRestoreNodeMetadata disk searchable setAttrs) attrs i =
      ((others ++ dirs).filter fun e => disk.inode e = i).foldl (fun a e => setAttrs e.2 a)
        (attrs i) := by
  have hmem : ∀ e ∈ others ++ dirs, e ∈ places := by
    intro e he
    rcases List.mem_append.mp he with he | he
    · exact (hothers e he).1
    · exact (hdirs e he).1
  rw [← foldl_update]
  refine congrFun (foldl_tryUpdate ?_ (h.order hothers hdirs hsorted) fun e he =>
    h.reached e (hmem e he)) i
  exact fun f g e hsame => disk.pathExists_congr hsame

end Restored

section Sample

/-- A target `/t` with a directory `a` and a file `x` in it. -/
def metadataInodes : List (Path × Nat) :=
  [([.rootDir], 0), (sampleTarget, 1), (sampleTarget ++ [sampleA], 2),
   (sampleTarget ++ [sampleA, sampleX], 3)]

theorem mem_metadataInodes {path : Path} {i : Nat}
    (h : (metadataInodes.find? fun e => e.1 = path).map Prod.snd = some i) :
    (path, i) ∈ metadataInodes := by
  obtain ⟨e, hfind, rfl⟩ := Option.map_eq_some_iff.mp h
  have hpath : e.1 = path := by simpa using List.find?_some hfind
  rw [← hpath]
  exact List.mem_of_find?_eq_some hfind

def metadataDisk : RestoreDisk where
  ino path := (metadataInodes.find? fun e => e.1 = path).map Prod.snd
  isDir i := decide (i < 3)
  empty := rfl
  above {p q i} hlt hne hq := by
    have hall : ∀ e ∈ metadataInodes, ∀ n < e.1.length, n ≠ 0 → ∃ d ∈ metadataInodes,
        (metadataInodes.find? fun e' => e'.1 = e.1.take n).map Prod.snd = some d.2 ∧ d.2 < 3 := by
      decide
    obtain ⟨d, -, hd, hdir⟩ := hall _ (mem_metadataInodes hq) p.length hlt.length_lt
      (fun h => hne (List.length_eq_zero_iff.mp h))
    rw [List.prefix_iff_eq_take.mp hlt.1]
    exact ⟨d.2, hd, decide_eq_true hdir⟩
  own {p q i} hp hq _ := by
    have hall : ∀ e ∈ metadataInodes, ∀ e' ∈ metadataInodes, e.2 = e'.2 → e.1 = e'.1 := by decide
    exact hall _ (mem_metadataInodes hp) _ (mem_metadataInodes hq) rfl

/-- The mode of a node, if it has one, over the mode that is there. -/
def setMode (node : Node) (mode : Nat) : Nat := node.metadata.mode.getD mode

/-- The directory of the snapshot lets no one in. -/
def metadataStream : List (Except StreamError StreamNodeInfo) :=
  [.ok ([sampleA], some ⟨{ name := "a", nodeType := .directory, metadata := { mode := some 0 } }, 1⟩),
   .ok ([sampleA, sampleX], some ⟨{ name := "x", metadata := { mode := some 6 } }, 0⟩)]

/-- `sort_unstable_by_key`, as a sort that is stable. -/
def sortDeepestFirst (dirs : List (Path × Node)) : List (Path × Node) :=
  dirs.insertionSort fun a b => osLen b.1 ≤ osLen a.1

theorem sortDeepestFirst_spec (dirs : List (Path × Node)) : (sortDeepestFirst dirs).Perm dirs ∧
    (sortDeepestFirst dirs).Pairwise fun a b => osLen b.1 ≤ osLen a.1 := by
  have : Std.Total fun a b : Path × Node => osLen b.1 ≤ osLen a.1 := ⟨fun _ _ => Nat.le_total _ _⟩
  have : IsTrans (Path × Node) fun a b => osLen b.1 ≤ osLen a.1 :=
    ⟨fun _ _ _ hab hbc => Nat.le_trans hbc hab⟩
  exact ⟨List.perm_insertionSort _ _, List.pairwise_insertionSort _ _⟩

end Sample

end Mapache
