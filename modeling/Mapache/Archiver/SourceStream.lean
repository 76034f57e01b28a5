import Mathlib.Data.List.Dedup
import Mapache.Archiver.TreeSerializer
import Mapache.Fs.Intermediate

/-!
# Consistent streams

What the tree serializer may rely on: the items of a stream over source paths that are not nested,
each directory announced with the number of its children. A directory strictly between the root and
a source (`Pre`) is in the map of the serializer from the start; the stream may emit it or not.

`Done` says which directories the arrived items complete: one waits for every item below it except
the items of the directories that are in the map from the start. A directory is done when the number
of its children is known and all of them are done (`done_iff`), which is what the serializer counts.
-/

set_option autoImplicit false

namespace Mapache

open Lib

/-- A directory strictly between the root and one of the sources. -/
def IsIntermediate (root : Path) (sources : List Path) (path : Path) : Prop :=
  StrictPrefix root path ∧ ∃ src ∈ sources, StrictPrefix path src

instance (root : Path) (sources : List Path) (path : Path) :
    Decidable (IsIntermediate root sources path) :=
  inferInstanceAs (Decidable (_ ∧ ∃ src ∈ sources, _))

/-- The intermediate directories, those that `get_intermediate_paths` lists. -/
def intermediates (root : Path) (sources : List Path) : List Path :=
  sources.flatMap fun src =>
    src.inits.filter fun path => StrictPrefix root path ∧ StrictPrefix path src

/-- The paths of the items and of the intermediate directories. -/
def streamPaths (root : Path) (sources : List Path) (items : List (Path × StreamNode)) : List Path :=
  (items.map Prod.fst ++ intermediates root sources).dedup

/-- The paths in a directory. -/
def streamChildren (root : Path) (sources : List Path) (items : List (Path × StreamNode))
    (dir : Path) :
    List Path :=
  (streamPaths root sources items).filter fun path => path.dropLast = dir

/-- A consistent stream of items over source paths that are not nested. -/
structure SourceStream where
  root : Path
  sources : List Path
  items : List (Path × StreamNode)
  below : ∀ src ∈ sources, Absolute src ∧ StrictPrefix root src
  not_nested : ∀ src ∈ sources, ∀ src' ∈ sources, src <+: src' → src = src'
  nodup : (items.map Prod.fst).Nodup
  emitted : ∀ src ∈ sources, src ∈ items.map Prod.fst
  absolute : ∀ i ∈ items, Absolute i.1
  /-- The root of the file system is a directory. -/
  slash : ∀ i ∈ items, i.1 = [.rootDir] → i.2.node.isDir = true
  /-- An item is a source, lies below one, or is a directory on the way to one. -/
  place : ∀ i ∈ items, (∃ src ∈ sources, src <+: i.1) ∨
    (i.2.node.isDir = true ∧ IsIntermediate root sources i.1)
  parent : ∀ i ∈ items, ∀ src ∈ sources, StrictPrefix src i.1 →
    ∃ j ∈ items, j.1 = i.1.dropLast ∧ j.2.node.isDir = true
  named : ∀ i ∈ items, ∀ name, fileName i.1 = some name → i.2.node.name = toStringLossy name
  announced : ∀ i ∈ items, i.2.node.isDir = true →
    i.2.numChildren = (streamChildren root sources items i.1).length
  /-- The processor leaves the tree of a directory open. -/
  bare : ∀ i ∈ items, i.2.node.isDir = true → i.2.node.tree = none

namespace SourceStream

variable (S : SourceStream)

/-- The serializer has the directory in its map from the start. -/
def Pre (path : Path) : Prop := IsIntermediate S.root S.sources path

/-- The paths of the tree below the root. -/
def nodes : List Path := streamPaths S.root S.sources S.items

def children (dir : Path) : List Path := streamChildren S.root S.sources S.items dir

/-- The root, or the path of a directory. -/
def Dir (path : Path) : Prop :=
  path = S.root ∨ S.Pre path ∨ ∃ i ∈ S.items, i.1 = path ∧ i.2.node.isDir = true

/-- Every item at or below the path has arrived, those of the intermediate directories apart. -/
def Done (arrived : List (Path × StreamNode)) (path : Path) : Prop :=
  ∀ i ∈ S.items, path <+: i.1 → ¬ S.Pre i.1 → i ∈ arrived

/-- The number of children is known. -/
def Known (arrived : List (Path × StreamNode)) (path : Path) : Prop :=
  path = S.root ∨ S.Pre path ∨ ∃ i ∈ arrived, i.1 = path

section Paths

variable {S} {path dir : Path} {i : Path × StreamNode}

theorem mem_intermediates {root : Path} {sources : List Path} :
    path ∈ intermediates root sources ↔ IsIntermediate root sources path := by
  simp only [intermediates, List.mem_flatMap, List.mem_filter, List.mem_inits, decide_eq_true_iff]
  constructor
  · rintro ⟨src, hsrc, -, hroot, hpath⟩
    exact ⟨hroot, src, hsrc, hpath⟩
  · rintro ⟨hroot, src, hsrc, hpath⟩
    exact ⟨src, hsrc, hpath.1, hroot, hpath⟩

theorem mem_nodes : path ∈ S.nodes ↔ (∃ i ∈ S.items, i.1 = path) ∨ S.Pre path := by
  unfold nodes streamPaths
  rw [List.mem_dedup, List.mem_append, mem_intermediates, List.mem_map]
  rfl

theorem nodup_children (dir : Path) : (S.children dir).Nodup :=
  (List.nodup_dedup _).filter _

theorem mem_children : path ∈ S.children dir ↔ path ∈ S.nodes ∧ path.dropLast = dir := by
  unfold children streamChildren nodes
  rw [List.mem_filter, decide_eq_true_iff]

/-- Everything lies below the root. -/
theorem root_lt_item (hi : i ∈ S.items) : StrictPrefix S.root i.1 := by
  rcases S.place i hi with ⟨src, hsrc, hle⟩ | ⟨-, hroot, -⟩
  · exact (S.below src hsrc).2.trans_le hle
  · exact hroot

theorem root_lt (h : path ∈ S.nodes) : StrictPrefix S.root path := by
  rcases mem_nodes.mp h with ⟨i, hi, rfl⟩ | hpre
  · exact root_lt_item hi
  · exact hpre.1

theorem Pre.absolute (h : S.Pre path) : Absolute path := by
  obtain ⟨hroot, src, hsrc, hpath⟩ := h
  exact (S.below src hsrc).1.of_le hpath.1 hroot.ne_nil

theorem absolute_of_mem (h : path ∈ S.nodes) : Absolute path := by
  rcases mem_nodes.mp h with ⟨i, hi, rfl⟩ | hpre
  · exact S.absolute i hi
  · exact hpre.absolute

/-- An intermediate directory does not lie at or below a source. -/
theorem Pre.not_le_self {src : Path} (h : S.Pre path) (hsrc : src ∈ S.sources) : ¬ src <+: path := by
  obtain ⟨-, src', hsrc', hpath⟩ := h
  intro hle
  have hlt := StrictPrefix.prefix_trans hle hpath
  exact hlt.2 (S.not_nested src hsrc src' hsrc' hlt.1)

/-- The item of an intermediate directory is a directory. -/
theorem isDir_of_pre (hi : i ∈ S.items) (h : S.Pre i.1) : i.2.node.isDir = true := by
  rcases S.place i hi with ⟨src, hsrc, hle⟩ | ⟨hdir, -⟩
  · exact absurd hle (h.not_le_self hsrc)
  · exact hdir

theorem eq_of_path_eq {j : Path × StreamNode} (hi : i ∈ S.items) (hj : j ∈ S.items)
    (h : i.1 = j.1) : i = j :=
  List.inj_on_of_nodup_map S.nodup hi hj h

/-- The directories above an item below a source are items. -/
theorem exists_item_above {src : Path} (hsrc : src ∈ S.sources) (hi : i ∈ S.items)
    (hle : src <+: path) (hpath : StrictPrefix path i.1) :
    ∃ j ∈ S.items, j.1 = path ∧ j.2.node.isDir = true := by
  -- by induction on the path of the item, from its parent up
  generalize hlen : i.1.length = len
  induction len generalizing i with
  | zero => exact absurd (List.length_eq_zero_iff.mp hlen) hpath.ne_nil
  | succ len ih =>
    obtain ⟨j, hj, hjpath, hjdir⟩ := S.parent i hi src hsrc (StrictPrefix.prefix_trans hle hpath)
    by_cases heq : path = i.1.dropLast
    · exact ⟨j, hj, hjpath.trans heq.symm, hjdir⟩
    · refine ih hj ⟨hjpath ▸ hpath.prefix_dropLast, fun h => heq (h.trans hjpath)⟩ ?_
      rw [hjpath, List.length_dropLast, hlen]
      rfl

/-- **What lies between the root and a node is a directory of the stream.** -/
theorem dir_of_between (h : path ∈ S.nodes) (hroot : StrictPrefix S.root dir)
    (hdir : StrictPrefix dir path) : S.Dir dir := by
  rcases mem_nodes.mp h with ⟨i, hi, rfl⟩ | ⟨-, src, hsrc, hpath⟩
  · rcases S.place i hi with ⟨src, hsrc, hle⟩ | ⟨-, -, src, hsrc, hpath⟩
    · rcases prefix_or_strictPrefix hle hdir.1 with hbelow | habove
      · exact Or.inr (Or.inr (exists_item_above hsrc hi hbelow hdir))
      · exact Or.inr (Or.inl ⟨hroot, src, hsrc, habove⟩)
    · exact Or.inr (Or.inl ⟨hroot, src, hsrc, hdir.trans_le hpath.1⟩)
  · exact Or.inr (Or.inl ⟨hroot, src, hsrc, hdir.trans_le hpath.1⟩)

theorem Dir.mem_nodes (h : S.Dir dir) (hne : dir ≠ S.root) : dir ∈ S.nodes := by
  rcases h with rfl | hpre | ⟨i, hi, hpath, -⟩
  · exact absurd rfl hne
  · exact SourceStream.mem_nodes.mpr (Or.inr hpre)
  · exact SourceStream.mem_nodes.mpr (Or.inl ⟨i, hi, hpath⟩)

theorem mem_nodes_of_between (h : path ∈ S.nodes) (hroot : StrictPrefix S.root dir)
    (hdir : dir <+: path) : dir ∈ S.nodes := by
  by_cases heq : dir = path
  · rw [heq]
    exact h
  · exact (dir_of_between h hroot ⟨hdir, heq⟩).mem_nodes hroot.2.symm

/-- The parent of a node is a directory. -/
theorem dir_dropLast (h : path ∈ S.nodes) : S.Dir path.dropLast := by
  by_cases heq : path.dropLast = S.root
  · exact Or.inl heq
  · exact dir_of_between h ⟨(root_lt h).prefix_dropLast, fun h' => heq h'.symm⟩
      (.dropLast (root_lt h).ne_nil)

/-- The root lies at or above every directory. -/
theorem Dir.root_le (h : S.Dir dir) : S.root <+: dir := by
  by_cases heq : dir = S.root
  · rw [heq]
  · exact (root_lt (h.mem_nodes heq)).1

end Paths

/-! ## Completion -/

section Done

variable {S} {arrived : List (Path × StreamNode)} {path dir : Path} {i : Path × StreamNode}

theorem Done.mono {arrived' : List (Path × StreamNode)} (h : S.Done arrived path)
    (hsub : ∀ i ∈ arrived, i ∈ arrived') : S.Done arrived' path := fun j hj hle hpre =>
  hsub j (h j hj hle hpre)

/-- Nothing lies below an item that is no directory. -/
theorem done_leaf (hi : i ∈ S.items) (hleaf : i.2.node.isDir = false) :
    S.Done arrived i.1 ↔ i ∈ arrived := by
  have hpre : ¬ S.Pre i.1 := fun hpre => by
    rw [isDir_of_pre hi hpre] at hleaf
    cases hleaf
  constructor
  · exact fun h => h i hi (List.prefix_refl _) hpre
  · intro hmem j hj hle _
    by_cases heq : i.1 = j.1
    · rw [← eq_of_path_eq hi hj heq]
      exact hmem
    · rcases dir_of_between (mem_nodes.mpr (Or.inl ⟨j, hj, rfl⟩)) (root_lt_item hi) ⟨hle, heq⟩ with
        hroot | hpre' | ⟨k, hk, hpath, hdir⟩
      · exact absurd hroot.symm (root_lt_item hi).2
      · exact absurd hpre' hpre
      · rw [eq_of_path_eq hk hi hpath, hleaf] at hdir
        cases hdir

/-- **When a directory is done**: the number of its children is known, and all of them are done. -/
theorem done_iff (hdir : S.Dir dir) (hsub : ∀ i ∈ arrived, i ∈ S.items) :
    S.Done arrived dir ↔ S.Known arrived dir ∧ ∀ c ∈ S.children dir, S.Done arrived c := by
  constructor
  · intro h
    refine ⟨?_, fun c hc j hj hle hpre => ?_⟩
    · rcases hdir with rfl | hpre | ⟨i, hi, rfl, -⟩
      · exact Or.inl rfl
      · exact Or.inr (Or.inl hpre)
      · by_cases hpre : S.Pre i.1
        · exact Or.inr (Or.inl hpre)
        · exact Or.inr (Or.inr ⟨i, h i hi (List.prefix_refl _) hpre, rfl⟩)
    · have hparent := (mem_children.mp hc).2
      refine h j hj ?_ hpre
      rw [← hparent]
      exact (List.dropLast_prefix c).trans hle
  · rintro ⟨hknown, hchildren⟩ j hj hle hpre
    by_cases heq : dir = j.1
    · -- the directory itself is an item
      rcases hknown with rfl | hpre' | ⟨k, hk, hpath⟩
      · exact absurd heq (root_lt_item hj).2
      · exact absurd (heq ▸ hpre') hpre
      · rw [← eq_of_path_eq (hsub k hk) hj (hpath.trans heq)]
        exact hk
    · -- the item lies at or below one of the children
      obtain ⟨x, hx⟩ := StrictPrefix.exists_next ⟨hle, heq⟩
      have hroot : StrictPrefix S.root (dir ++ [x]) :=
        .prefix_trans hdir.root_le (.append_singleton dir x)
      have hmem : dir ++ [x] ∈ S.nodes :=
        mem_nodes_of_between (mem_nodes.mpr (Or.inl ⟨j, hj, rfl⟩)) hroot hx
      exact hchildren _ (mem_children.mpr ⟨hmem, List.dropLast_concat⟩) j hj hx hpre

/-- An item only matters to the directories above it. -/
theorem done_cons_of_not_le (h : ¬ path <+: i.1) :
    S.Done (i :: arrived) path ↔ S.Done arrived path := by
  constructor
  · intro hdone j hj hle hpre
    rcases List.mem_cons.mp (hdone j hj hle hpre) with rfl | hmem
    · exact absurd hle h
    · exact hmem
  · exact fun hdone => hdone.mono fun j hj => List.mem_cons_of_mem _ hj

/-- Nobody waits for the item of an intermediate directory. -/
theorem done_cons_of_pre (h : S.Pre i.1) : S.Done (i :: arrived) path ↔ S.Done arrived path := by
  constructor
  · intro hdone j hj hle hpre
    rcases List.mem_cons.mp (hdone j hj hle hpre) with rfl | hmem
    · exact absurd h hpre
    · exact hmem
  · exact fun hdone => hdone.mono fun j hj => List.mem_cons_of_mem _ hj

theorem not_done_of_not_mem (hi : i ∈ S.items) (hpre : ¬ S.Pre i.1) (hmem : i ∉ arrived)
    (hle : path <+: i.1) : ¬ S.Done arrived path := fun h => hmem (h i hi hle hpre)

/-- A directory on the way to a source has children. -/
theorem Pre.children_ne_nil (h : S.Pre dir) : S.children dir ≠ [] := by
  obtain ⟨hroot, src, hsrc, hdir⟩ := h
  obtain ⟨x, hx⟩ := hdir.exists_next
  obtain ⟨i, hi, rfl⟩ := List.mem_map.mp (S.emitted src hsrc)
  have hmem : dir ++ [x] ∈ S.nodes := mem_nodes_of_between (mem_nodes.mpr (Or.inl ⟨i, hi, rfl⟩))
    (.prefix_trans hroot.1 (.append_singleton dir x)) hx
  exact List.ne_nil_of_mem (mem_children.mpr ⟨hmem, List.dropLast_concat⟩)

end Done

/-! ## The map at the start -/

section Start

variable {S} {path dir : Path}

/-- The children of the root and of an intermediate directory are on the way to a source. -/
theorem mem_children_iff_onWay (hdir : dir = S.root ∨ S.Pre dir) :
    path ∈ S.children dir ↔ ∃ c, path = dir ++ [c] ∧ OnWay S.sources dir c := by
  have hroot : S.root <+: dir := by
    rcases hdir with rfl | hpre
    · exact List.prefix_refl _
    · exact hpre.1.1
  constructor
  · intro hpath
    obtain ⟨hmem, hparent⟩ := mem_children.mp hpath
    obtain ⟨c, hc⟩ := exists_eq_append_singleton (root_lt hmem).ne_nil
    rw [hparent] at hc
    refine ⟨c, hc, ?_⟩
    -- a source at or above the path is the path itself
    have hsource : ∀ src ∈ S.sources, src <+: path → OnWay S.sources dir c := by
      intro src hsrc hle
      refine ⟨src, hsrc, ?_⟩
      rw [hc] at hle
      rcases prefix_append_singleton_iff.mp hle with habove | heq
      · rcases hdir with rfl | hpre
        · exact absurd habove (S.below src hsrc).2.not_le_self
        · exact absurd habove (hpre.not_le_self hsrc)
      · rw [heq]
    rcases mem_nodes.mp hmem with ⟨i, hi, rfl⟩ | ⟨-, src, hsrc, hlt⟩
    · rcases S.place i hi with ⟨src, hsrc, hle⟩ | ⟨-, -, src, hsrc, hlt⟩
      · exact hsource src hsrc hle
      · exact ⟨src, hsrc, hc ▸ hlt.1⟩
    · exact ⟨src, hsrc, hc ▸ hlt.1⟩
  · rintro ⟨c, rfl, src, hsrc, hway⟩
    obtain ⟨i, hi, rfl⟩ := List.mem_map.mp (S.emitted src hsrc)
    refine mem_children.mpr ⟨?_, List.dropLast_concat⟩
    exact mem_nodes_of_between (mem_nodes.mpr (Or.inl ⟨i, hi, rfl⟩))
      (.prefix_trans hroot (.append_singleton dir c)) hway

/-- The name of a path in its directory. -/
def lastName (path : Path) : Bytes := (path.getLast?.map Component.asOsStr).getD []

theorem lastName_append (c : Component) : lastName (dir ++ [c]) = c.asOsStr := by
  simp [lastName]

/-- A function of the children that tells two names apart tells the children apart: only the root of
the file system has no name, and it has no siblings. -/
theorem nodup_map_children {β : Type} {f : Path → β}
    (h : ∀ p ∈ S.children dir, ∀ q ∈ S.children dir, ∀ name name', fileName p = some name →
      fileName q = some name' → f p = f q → lastName p = lastName q) :
    ((S.children dir).map f).Nodup := by
  refine List.Nodup.map_on (fun p hp q hq heq => ?_) (nodup_children dir)
  obtain ⟨hpmem, hpdir⟩ := mem_children.mp hp
  obtain ⟨hqmem, hqdir⟩ := mem_children.mp hq
  rcases (absolute_of_mem hpmem).cases_last with hproot | ⟨name, hpname, hplen⟩
  · rcases (absolute_of_mem hqmem).cases_last with hqroot | ⟨name', hqname, hqlen⟩
    · rw [hproot, hqroot]
    · rw [hqname, hqdir, ← hpdir, hproot] at hqlen
      exact absurd hqlen (by simp)
  · rcases (absolute_of_mem hqmem).cases_last with hqroot | ⟨name', hqname, hqlen⟩
    · rw [hpname, hpdir, ← hqdir, hqroot] at hplen
      exact absurd hplen (by simp)
    · have hpfile : fileName p = some name := by rw [hpname, fileName_append]
      have hqfile : fileName q = some name' := by rw [hqname, fileName_append]
      have hlast := h p hp q hq name name' hpfile hqfile heq
      rw [hpname, hqname, lastName_append, lastName_append] at hlast
      rw [hpname, hqname, hpdir, hqdir]
      exact congrArg (fun name => dir ++ [Component.normal name]) hlast

/-- Distinct children have distinct names. -/
theorem nodup_lastName (dir : Path) : ((S.children dir).map lastName).Nodup :=
  nodup_map_children fun _ _ _ _ _ _ _ _ heq => heq

/-- The last component of a path is its name. -/
theorem lastName_of_fileName {name : Bytes} (h : fileName path = some name) :
    lastName path = name := by
  unfold fileName at h
  unfold lastName
  split at h
  · rename_i name' hlast
    cases h
    rw [hlast]
    rfl
  · cases h

theorem counted : Counted S.root S.sources (S.sources.foldl (addSource S.root) ([], ∅)) :=
  getIntermediatePaths_spec S.below

/-- The number of children of the root. -/
theorem length_root : (getIntermediatePaths S.root S.sources).1 = (S.children S.root).length := by
  have hperm : (S.sources.foldl (addSource S.root) ([], ∅)).1.Perm
      ((S.children S.root).map lastName) := by
    refine (List.perm_ext_iff_of_nodup S.counted.nodup_root (nodup_lastName _)).mpr fun name => ?_
    rw [S.counted.mem_root, List.mem_map]
    constructor
    · rintro ⟨c, rfl, hway⟩
      exact ⟨_, (mem_children_iff_onWay (Or.inl rfl)).mpr ⟨c, rfl, hway⟩, lastName_append c⟩
    · rintro ⟨path, hpath, rfl⟩
      obtain ⟨c, rfl, hway⟩ := (mem_children_iff_onWay (Or.inl rfl)).mp hpath
      exact ⟨c, (lastName_append c).symm, hway⟩
  rw [getIntermediatePaths, hperm.length_eq, List.length_map]

/-- `get_intermediate_paths` lists directories strictly between the root and a source. -/
theorem isIntermediate_of_mem {root : Path} {sources : List Path} {count : Nat}
    (h : ∀ src ∈ sources, Absolute src ∧ StrictPrefix root src)
    (hmem : (dir, count) ∈ (getIntermediatePaths root sources).2) : IsIntermediate root sources
    dir := by
  have hcounted := getIntermediatePaths_spec h
  obtain ⟨names, hlookup, -⟩ := Table.mem_map_toList.mp hmem
  -- the list of names is not empty
  obtain ⟨name, hname⟩ := List.exists_mem_of_ne_nil names fun hnil =>
    hcounted.ne_nil dir (hnil ▸ hlookup)
  have hchild : name ∈ childNames (sources.foldl (addSource root) ([], ∅)).2 dir := by
    rw [childNames, hlookup, Option.getD_some]
    exact hname
  obtain ⟨hroot, src, hsrc, hway⟩ := (hcounted.mem dir name).mp hchild
  exact ⟨hroot, src, hsrc, (StrictPrefix.append_singleton _ _).trans_le hway⟩

/-- The directories that `get_intermediate_paths` lists, with the numbers of their children. -/
theorem mem_getIntermediatePaths {count : Nat} :
    (dir, count) ∈ (getIntermediatePaths S.root S.sources).2 ↔
      S.Pre dir ∧ count = (S.children dir).length := by
  have hnormal : ∀ {c : Component}, S.Pre dir → OnWay S.sources dir c → ∃ name, c = .normal name := by
    rintro c hpre ⟨src, hsrc, hway⟩
    have habs := (S.below src hsrc).1.of_le hway (by simp)
    rcases habs.cases_last with hroot | ⟨name, hname, -⟩
    · have hlen := congrArg List.length hroot
      have hpos := List.length_pos_iff.mpr hpre.1.ne_nil
      rw [List.length_append, List.length_singleton, List.length_singleton] at hlen
      omega
    · rw [List.dropLast_concat] at hname
      exact ⟨name, List.singleton_inj.mp (List.append_cancel_left hname)⟩
  have hmem := S.counted.mem dir
  have hperm : S.Pre dir → (childNames (S.sources.foldl (addSource S.root) ([], ∅)).2 dir).Perm
      ((S.children dir).map lastName) := by
    intro hpre
    refine (List.perm_ext_iff_of_nodup (S.counted.nodup dir) (nodup_lastName _)).mpr fun name => ?_
    rw [hmem, List.mem_map]
    constructor
    · rintro ⟨-, hway⟩
      exact ⟨_, (mem_children_iff_onWay (Or.inr hpre)).mpr ⟨_, rfl, hway⟩, lastName_append _⟩
    · rintro ⟨path, hpath, rfl⟩
      obtain ⟨c, rfl, hway⟩ := (mem_children_iff_onWay (Or.inr hpre)).mp hpath
      obtain ⟨name, rfl⟩ := hnormal hpre hway
      rw [lastName_append]
      exact ⟨hpre.1, hway⟩
  constructor
  · intro hcount
    have hpre : S.Pre dir := isIntermediate_of_mem S.below hcount
    obtain ⟨names, hlookup, rfl⟩ := Table.mem_map_toList.mp hcount
    have hnames : childNames (S.sources.foldl (addSource S.root) ([], ∅)).2 dir = names := by
      rw [childNames, hlookup, Option.getD_some]
    refine ⟨hpre, ?_⟩
    rw [← List.length_map (f := lastName), ← (hperm hpre).length_eq, hnames]
  · rintro ⟨hpre, rfl⟩
    have hlen := (hperm hpre).length_eq
    rw [List.length_map] at hlen
    cases hlookup : (S.sources.foldl (addSource S.root) ([], ∅)).2.lookup dir with
    | none =>
      rw [childNames, hlookup, Option.getD_none] at hlen
      exact absurd (List.length_eq_zero_iff.mp hlen.symm) hpre.children_ne_nil
    | some names =>
      rw [childNames, hlookup, Option.getD_some] at hlen
      exact Table.mem_map_toList.mpr ⟨names, hlookup, hlen⟩

/-- The initial map waits for the children of the root and of the intermediate directories. -/
theorem entry_new (dir : Path) [Decidable (dir = S.root ∨ S.Pre dir)] :
    (TreeSerializer.new S.root (getIntermediatePaths S.root S.sources)).entry dir =
      ⟨if dir = S.root ∨ S.Pre dir then .known (S.children dir).length else .unknown, none, []⟩ := by
  rw [TreeSerializer.entry, TreeSerializer.new]
  by_cases hroot : dir = S.root
  · subst hroot
    rw [if_pos (Or.inl rfl), TreeSerializer.lookup_initPendingTrees_root, S.length_root]
    rfl
  · by_cases hpre : S.Pre dir
    · rw [if_pos (Or.inr hpre), TreeSerializer.lookup_initPendingTrees hroot
        (mem_getIntermediatePaths.mpr ⟨hpre, rfl⟩) fun count h => (mem_getIntermediatePaths.mp h).2]
      rfl
    · rw [if_neg (by tauto), TreeSerializer.lookup_initPendingTrees_none hroot
        fun count h => hpre (mem_getIntermediatePaths.mp h).1]
      rfl

end Start

end SourceStream

end Mapache
