import Mapache.Backend.Files
import Mapache.Common.Error
import Mapache.Fs.Names
import Mapache.Lib.Worklist

/-!
# Listing a backend

`list_dir` gives the entries of one directory. `read_backend_dir` crawls the directories below a path
with a stack, and the default `list_dir_recursive` lists them with one call for each subdirectory, up
to eight of which run at the same time; their results come in the order in which they end, so that
order is an argument here. Both have fuel for their rounds or their depth.

Below a directory the first gives every entry once (`crawl_perm`) and the second every file once
(`listDirRecursive_perm`). From the root the crawl gives what `Files.readBackendDir` gives.
-/

set_option autoImplicit false

namespace Mapache

open Lib

/-- `MapacheError` with the further variants that the functions on stored files return. -/
inductive StorageError where
  | common (e : MapacheError)
  | backend (message : String)
  | repo (message : String)
  | notFound (message : String)
  | snapshotNotFound (message : String)
  deriving DecidableEq

/-- `Path::display` of a path without a root. -/
def displayPath (path : Path) : String :=
  toStringLossy ([(47 : UInt8)].intercalate (path.map fun
    | .normal name => name
    | .rootDir => []))

/-- The message of the operating system for a path that is no directory: something above it, or the
path itself, is a file, or there is nothing. -/
def Files.notADirectory (b : Files) (path : Path) : String :=
  if (Files.dirsOf path).any fun p => (b.fileAt p).isSome then "Not a directory (os error 20)"
  else "No such file or directory (os error 2)"

namespace BackendNode

/-- The path of a directory. -/
def dirPath : BackendNode → Option Path
  | file _ _ => none
  | dir path => some path

/-- A file, which is what `list_dir_recursive` keeps. -/
def isFile : BackendNode → Bool
  | file _ _ => true
  | dir _ => false

end BackendNode

namespace Files

/-- The path is the root or a directory. -/
def IsDir (b : Files) (path : Path) : Prop := path = [] ∨ b.lookup path = some .dir

instance (b : Files) (path : Path) : Decidable (b.IsDir path) :=
  inferInstanceAs (Decidable (path = [] ∨ b.lookup path = some .dir))

/-- What lies directly in a directory. -/
def children (b : Files) (path : Path) : List BackendNode :=
  b.readBackendDir.filter fun n => n.path ≠ [] ∧ n.path.dropLast = path

/-- What lies below a directory. -/
def below (b : Files) (path : Path) : List BackendNode :=
  b.readBackendDir.filter fun n => path <+: n.path ∧ n.path ≠ path

/-- `list_dir`; the order of the map stands for that of the operating system. -/
def listDir (b : Files) (path : Path) : Except StorageError (List BackendNode) :=
  if b.IsDir path then .ok (b.children path)
  else .error (.backend ("could not list contents of directory '" ++ displayPath path ++ "': " ++
    b.notADirectory path))

/-- A round of `read_backend_dir`: the entries of a directory, and the directories among them. -/
def crawlStep (b : Files) (path : Path) : Except StorageError (List BackendNode × List Path) :=
  (b.listDir path).map fun nodes => (nodes, nodes.filterMap BackendNode.dirPath)

/-- `read_backend_dir`. The directories found last are taken first. -/
def crawl (b : Files) (fuel : Nat) (path : Path) : Except StorageError (Option (List BackendNode)) :=
  worklist b.crawlStep (fun new rest => new.reverse ++ rest) fuel [path]

/-- `try_collect` and `flatten`: the first error of the results, or all of them together. -/
def tryFlatten : List (Except StorageError (Option (List BackendNode))) →
    Except StorageError (Option (List BackendNode))
  | [] => .ok (some [])
  | .error e :: _ => .error e
  | .ok nodes :: results =>
    (tryFlatten results).map fun rest => nodes.bind fun ns => rest.map (ns ++ ·)

/-- The default `list_dir_recursive`: `order path nodes` is the order in which the calls for the
entries of `path` end. -/
def listDirRecursive (b : Files) (order : Path → List BackendNode → List BackendNode) :
    Nat → Path → Except StorageError (Option (List BackendNode))
  | 0, _ => .ok none
  | fuel + 1, path =>
    match b.listDir path with
    | .error e => .error e
    | .ok nodes =>
      tryFlatten ((order path nodes).map fun
        | .dir dirPath => b.listDirRecursive order fuel dirPath
        | .file path size => .ok (some [.file path size]))

section Below

variable {b : Files} {path p : Path} {n : BackendNode}

theorem listDir_of_isDir (h : b.IsDir path) : b.listDir path = .ok (b.children path) :=
  if_pos h

theorem mem_children : n ∈ b.children path ↔
    n ∈ b.readBackendDir ∧ n.path ≠ [] ∧ n.path.dropLast = path := by
  simp [children]

theorem mem_below : n ∈ b.below path ↔ n ∈ b.readBackendDir ∧ path <+: n.path ∧ n.path ≠ path := by
  simp [below]

theorem nodup_readBackendDir (b : Files) : b.readBackendDir.Nodup :=
  List.Nodup.of_map _ b.nodup_paths

theorem lookup_of_dirPath (hn : n ∈ b.readBackendDir) (h : n.dirPath = some p) :
    n = .dir p ∧ b.lookup p = some .dir := by
  obtain ⟨entry, hlook, heq⟩ := mem_readBackendDir.mp hn
  cases n with
  | file _ _ => cases h
  | dir path =>
    cases h
    cases entry with
    | dir => exact ⟨rfl, hlook⟩
    | file data => cases heq

theorem dir_mem_readBackendDir (h : b.lookup p = some .dir) : BackendNode.dir p ∈ b.readBackendDir :=
  mem_readBackendDir.mpr ⟨.dir, h, rfl⟩

theorem mem_dirs : p ∈ (b.children path).filterMap BackendNode.dirPath ↔
    b.lookup p = some .dir ∧ p ≠ [] ∧ p.dropLast = path := by
  rw [List.mem_filterMap]
  constructor
  · rintro ⟨n, hn, hdir⟩
    obtain ⟨hmem, hne, hdrop⟩ := mem_children.mp hn
    obtain ⟨rfl, hlook⟩ := lookup_of_dirPath hmem hdir
    exact ⟨hlook, hne, hdrop⟩
  · rintro ⟨hlook, hne, hdrop⟩
    exact ⟨.dir p, mem_children.mpr ⟨dir_mem_readBackendDir hlook, hne, hdrop⟩, rfl⟩

theorem nodup_dirs (b : Files) (path : Path) :
    ((b.children path).filterMap BackendNode.dirPath).Nodup := by
  refine ((b.nodup_readBackendDir).filter _).filterMap fun n m p hn hm => ?_
  cases n <;> cases m <;> simp_all [BackendNode.dirPath]

/-- What lies below a directory lies in it or below one of the directories in it. -/
theorem mem_below_iff (hwf : b.WF) : n ∈ b.below path ↔ n ∈ b.children path ∨
    ∃ p ∈ (b.children path).filterMap BackendNode.dirPath, n ∈ b.below p := by
  constructor
  · intro hn
    obtain ⟨hmem, ⟨rest, hrest⟩, hne⟩ := mem_below.mp hn
    cases rest with
    | nil => exact absurd (by simpa using hrest.symm) hne
    | cons c rest =>
      by_cases hlast : rest = []
      · refine Or.inl (mem_children.mpr ⟨hmem, ?_, ?_⟩)
        · simp [← hrest]
        · simp [← hrest, hlast]
      · -- the entry above it is a directory
        obtain ⟨entry, hlook, -⟩ := mem_readBackendDir.mp hmem
        have hpre : path ++ [c] <+: n.path := ⟨rest, by simpa using hrest⟩
        have hneq : path ++ [c] ≠ n.path := by
          intro heq
          rw [← hrest] at heq
          simp only [List.append_cancel_left_eq, List.cons.injEq, true_and] at heq
          exact hlast heq.symm
        have hdir := hwf.above (path ++ [c]) n.path entry hlook (by simp) hpre hneq
        exact Or.inr ⟨path ++ [c], mem_dirs.mpr ⟨hdir, by simp, by simp⟩,
          mem_below.mpr ⟨hmem, hpre, Ne.symm hneq⟩⟩
  · rintro (hn | ⟨p, hp, hn⟩)
    · obtain ⟨hmem, hne, rfl⟩ := mem_children.mp hn
      refine mem_below.mpr ⟨hmem, List.dropLast_prefix _, fun heq => hne ?_⟩
      have hlen := congrArg List.length heq
      rw [List.length_dropLast] at hlen
      exact List.length_eq_zero_iff.mp (by omega)
    · obtain ⟨-, hne, rfl⟩ := mem_dirs.mp hp
      obtain ⟨hmem, hpre, -⟩ := mem_below.mp hn
      refine mem_below.mpr ⟨hmem, (List.dropLast_prefix p).trans hpre, fun heq => hne ?_⟩
      have hle := hpre.length_le
      rw [heq, List.length_dropLast] at hle
      exact List.length_eq_zero_iff.mp (by omega)

theorem nodup_below (b : Files) (path : Path) : (b.below path).Nodup :=
  b.nodup_readBackendDir.filter _

/-- A directory and what lies below it are below the one that holds it. -/
theorem length_below_lt (hp : p ∈ (b.children path).filterMap BackendNode.dirPath) :
    (b.below p).length < (b.below path).length := by
  obtain ⟨hlook, hne, rfl⟩ := mem_dirs.mp hp
  have hself : BackendNode.dir p ∉ b.below p := fun h => (mem_below.mp h).2.2 rfl
  have hlen : p.dropLast.length < p.length := by
    rw [List.length_dropLast]
    exact Nat.sub_lt (List.length_pos_iff.mpr hne) Nat.one_pos
  have hsub : (BackendNode.dir p :: b.below p) ⊆ b.below p.dropLast := by
    intro m hm
    rcases List.mem_cons.mp hm with rfl | hm
    · refine mem_below.mpr ⟨dir_mem_readBackendDir hlook, List.dropLast_prefix p, fun heq => ?_⟩
      have heq : p = p.dropLast := heq
      rw [← heq] at hlen
      exact Nat.lt_irrefl _ hlen
    · obtain ⟨hmem, hpre, -⟩ := mem_below.mp hm
      refine mem_below.mpr ⟨hmem, (List.dropLast_prefix p).trans hpre, fun heq => ?_⟩
      have hle := hpre.length_le
      rw [heq] at hle
      exact Nat.lt_irrefl _ (hlen.trans_le hle)
  exact (List.subperm_of_subset (List.nodup_cons.mpr ⟨hself, nodup_below b p⟩) hsub).length_le

/-- Two directories with a common entry below them, in one directory, are one. -/
theorem disjoint_below {q : Path} (hp : p ∈ (b.children path).filterMap BackendNode.dirPath)
    (hq : q ∈ (b.children path).filterMap BackendNode.dirPath) (hne : p ≠ q) :
    List.Disjoint (b.below p) (b.below q) := by
  obtain ⟨-, hp0, hpd⟩ := mem_dirs.mp hp
  obtain ⟨-, hq0, hqd⟩ := mem_dirs.mp hq
  intro m hm hm'
  have hlen : p.length = q.length := by
    have h := congrArg List.length (hpd.trans hqd.symm)
    rw [List.length_dropLast, List.length_dropLast] at h
    have hppos := List.length_pos_iff.mpr hp0
    have hqpos := List.length_pos_iff.mpr hq0
    omega
  exact hne (List.prefix_of_prefix_length_le (mem_below.mp hm).2.1 (mem_below.mp hm').2.1
    hlen.le |>.eq_of_length hlen)

/-- The entries below a directory, each once. -/
theorem below_perm (hwf : b.WF) (path : Path) : (b.below path).Perm
    (b.children path ++ ((b.children path).filterMap BackendNode.dirPath).flatMap b.below) := by
  refine (List.perm_ext_iff_of_nodup (nodup_below b path) ?_).mpr fun n => ?_
  · refine List.Nodup.append (b.nodup_readBackendDir.filter _) ?_ ?_
    · refine List.nodup_flatMap.mpr ⟨fun p _ => nodup_below b p, ?_⟩
      exact (nodup_dirs b path).pairwise_of_forall_ne fun p hp q hq hne => disjoint_below hp hq hne
    · -- what lies below a directory is longer than its entries
      intro n hn hn'
      obtain ⟨p, hp, hbelow⟩ := List.mem_flatMap.mp hn'
      obtain ⟨-, hp0, hpd⟩ := mem_dirs.mp hp
      obtain ⟨-, hne, hdrop⟩ := mem_children.mp hn
      obtain ⟨-, hpre, hneq⟩ := mem_below.mp hbelow
      have hlen := congrArg List.length (hdrop.trans hpd.symm)
      rw [List.length_dropLast, List.length_dropLast] at hlen
      have hnpos := List.length_pos_iff.mpr hne
      have hppos := List.length_pos_iff.mpr hp0
      exact hneq (hpre.eq_of_length (by omega)).symm
  · rw [mem_below_iff hwf, List.mem_append, List.mem_flatMap]

end Below

/-! ## The crawl -/

section Crawl

variable {b : Files} {path : Path}

/-- Directories that each unfold do so together. -/
theorem unfolds_of_forall {dirs : List Path} (h : ∀ p ∈ dirs, ∃ out n,
    Unfolds b.crawlStep [p] out n ∧ n ≤ out.length + 1 ∧ out.Perm (b.below p)) :
    ∃ out n, Unfolds b.crawlStep dirs out n ∧ n ≤ out.length + dirs.length ∧
      out.Perm (dirs.flatMap b.below) := by
  induction dirs with
  | nil => exact ⟨[], 0, .nil, Nat.zero_le _, .refl _⟩
  | cons p dirs ih =>
    obtain ⟨out, n, hout, hle, hperm⟩ := h p List.mem_cons_self
    obtain ⟨out', m, hout', hle', hperm'⟩ := ih fun q hq => h q (List.mem_cons_of_mem _ hq)
    refine ⟨out ++ out', n + m, hout.append hout', ?_, ?_⟩
    · rw [List.length_append, List.length_cons]
      omega
    · rw [List.flatMap_cons]
      exact hperm.append hperm'

/-- A directory unfolds to what lies below it. The induction is on how much that is. -/
theorem exists_unfolds (hwf : b.WF) (h : b.IsDir path) : ∃ out n,
    Unfolds b.crawlStep [path] out n ∧ n ≤ out.length + 1 ∧ out.Perm (b.below path) := by
  induction hlen : (b.below path).length using Nat.strong_induction_on generalizing path with
  | _ k ih =>
    subst hlen
    obtain ⟨out, n, hout, hle, hperm⟩ := unfolds_of_forall fun p hp =>
      ih _ (length_below_lt hp) (Or.inr (mem_dirs.mp hp).1) rfl
    have hstep : b.crawlStep path =
        .ok (b.children path, (b.children path).filterMap BackendNode.dirPath) := by
      rw [crawlStep, listDir_of_isDir h]
      rfl
    refine ⟨_, _, .cons hstep hout .nil, ?_, ?_⟩
    · have hdirs := List.length_filterMap_le BackendNode.dirPath (b.children path)
      simp only [List.length_append, List.length_nil]
      omega
    · rw [List.append_nil]
      exact (hperm.append_left _).trans (below_perm hwf path).symm

/-- `read_backend_dir` lists what lies below a directory, each entry once. -/
theorem crawl_perm (hwf : b.WF) (h : b.IsDir path) {fuel : Nat}
    (hfuel : (b.below path).length < fuel) :
    ∃ out, b.crawl fuel path = .ok (some out) ∧ out.Perm (b.below path) := by
  obtain ⟨out, n, hout, hle, hperm⟩ := exists_unfolds hwf h
  have hlen := hperm.length_eq
  obtain ⟨out', hrun, hperm'⟩ := worklist_of_unfolds
    (fun new rest => (List.reverse_perm new).append_right rest) hout (by omega : n ≤ fuel)
  exact ⟨out', hrun, hperm'.trans hperm⟩

end Crawl

/-! ## The recursive listing -/

section Recursive

variable {b : Files} {path : Path} {order : Path → List BackendNode → List BackendNode}

/-- The files below a directory. -/
def filesBelow (b : Files) (path : Path) : List BackendNode := (b.below path).filter BackendNode.isFile

/-- The share of an entry in the files below its directory. -/
def filesOf (b : Files) : BackendNode → List BackendNode
  | .file path size => [.file path size]
  | .dir path => b.filesBelow path

theorem mem_filesBelow {n : BackendNode} : n ∈ b.filesBelow path ↔
    ∃ p data, n = .file p data.length ∧ b.fileAt p = some data ∧ path <+: p ∧ p ≠ path := by
  rw [filesBelow, List.mem_filter, mem_below, mem_readBackendDir]
  constructor
  · rintro ⟨⟨⟨entry, hlook, heq⟩, hpre, hne⟩, hfile⟩
    cases entry with
    | dir =>
      rw [heq] at hfile
      exact absurd hfile Bool.false_ne_true
    | file data => exact ⟨n.path, data, heq, fileAt_eq_some.mpr hlook, hpre, hne⟩
  · rintro ⟨p, data, rfl, hfile, hpre, hne⟩
    exact ⟨⟨⟨.file data, fileAt_eq_some.mp hfile, rfl⟩, hpre, hne⟩, rfl⟩

theorem filter_append_flatMap_perm (b : Files) (nodes : List BackendNode) :
    (nodes.filter BackendNode.isFile ++
      (nodes.filterMap BackendNode.dirPath).flatMap b.filesBelow).Perm (nodes.flatMap b.filesOf) := by
  induction nodes with
  | nil => exact .refl _
  | cons n nodes ih =>
    cases n with
    | file path size => exact ih.cons _
    | dir path =>
      refine List.Perm.trans ?_ (ih.append_left (b.filesBelow path))
      rw [List.filter_cons_of_neg (by simp [BackendNode.isFile]),
        List.filterMap_cons_some (show (BackendNode.dir path).dirPath = some path from rfl),
        List.flatMap_cons, ← List.append_assoc, ← List.append_assoc]
      exact List.perm_append_comm.append_right _

theorem filesBelow_perm (hwf : b.WF) (path : Path) :
    (b.filesBelow path).Perm ((b.children path).flatMap b.filesOf) := by
  have hfilter := (below_perm hwf path).filter BackendNode.isFile
  rw [List.filter_append, List.filter_flatMap] at hfilter
  exact hfilter.trans (filter_append_flatMap_perm b _)

/-- Results without errors are put together. -/
theorem tryFlatten_perm (nodes : List BackendNode) (g : BackendNode → List BackendNode)
    (f : BackendNode → Except StorageError (Option (List BackendNode)))
    (h : ∀ n ∈ nodes, ∃ out, f n = .ok (some out) ∧ out.Perm (g n)) :
    ∃ out, tryFlatten (nodes.map f) = .ok (some out) ∧ out.Perm (nodes.flatMap g) := by
  induction nodes with
  | nil => exact ⟨[], rfl, .refl _⟩
  | cons n nodes ih =>
    obtain ⟨out, hf, hperm⟩ := h n List.mem_cons_self
    obtain ⟨out', hrest, hperm'⟩ := ih fun m hm => h m (List.mem_cons_of_mem _ hm)
    refine ⟨out ++ out', ?_, ?_⟩
    · rw [List.map_cons, hf, tryFlatten, hrest]
      rfl
    · rw [List.flatMap_cons]
      exact hperm.append hperm'

/-- `list_dir_recursive` lists the files below a directory, each once, whatever order its calls end
in. -/
theorem listDirRecursive_perm (hwf : b.WF) (horder : ∀ p nodes, (order p nodes).Perm nodes)
    (h : b.IsDir path) {fuel : Nat} (hfuel : (b.below path).length < fuel) :
    ∃ out, b.listDirRecursive order fuel path = .ok (some out) ∧ out.Perm (b.filesBelow path) := by
  induction fuel generalizing path with
  | zero => omega
  | succ fuel ih =>
    obtain ⟨out, hrun, hperm⟩ := tryFlatten_perm (order path (b.children path)) b.filesOf
      (fun
        | .dir dirPath => b.listDirRecursive order fuel dirPath
        | .file path size => .ok (some [.file path size])) fun n hn => by
      cases n with
      | file p size => exact ⟨_, rfl, .refl _⟩
      | dir p =>
        have hp : p ∈ (b.children path).filterMap BackendNode.dirPath :=
          List.mem_filterMap.mpr ⟨_, (horder path _).mem_iff.mp hn, rfl⟩
        exact ih (Or.inr (mem_dirs.mp hp).1)
          ((length_below_lt hp).trans_le (Nat.le_of_lt_succ hfuel))
    refine ⟨out, ?_, hperm.trans ?_⟩
    · rw [listDirRecursive, listDir_of_isDir h]
      exact hrun
    · exact ((horder path _).flatMap_right _).trans (filesBelow_perm hwf path).symm

end Recursive

/-- What lies below the root is everything. -/
theorem below_nil {b : Files} (hwf : b.WF) : b.below [] = b.readBackendDir := by
  refine List.filter_eq_self.mpr fun n hn => ?_
  obtain ⟨entry, hlook, -⟩ := mem_readBackendDir.mp hn
  have hne : n.path ≠ [] := by
    intro heq
    rw [heq, hwf.root] at hlook
    cases hlook
  simpa using hne

/-- **The two listings of a directory.** In a backend whose entries lie in directories, the crawl of a
directory gives what lies below it, each entry once, and the recursive listing the files among that,
each once, whatever order its calls end in; from the root the crawl gives all entries. -/
theorem listings_are_complete (b : Files) (path : Path)
    (order : Path → List BackendNode → List BackendNode) (fuel : Nat) (hwf : b.WF)
    (hdir : b.IsDir path) (horder : ∀ p nodes, (order p nodes).Perm nodes)
    (hfuel : (b.below path).length < fuel) :
    (∃ out, b.crawl fuel path = .ok (some out) ∧ (out.map BackendNode.path).Nodup ∧
      ∀ n, n ∈ out ↔ ∃ p entry, n = .ofEntry p entry ∧ b.lookup p = some entry ∧
        path <+: p ∧ p ≠ path) ∧
    (∃ out, b.listDirRecursive order fuel path = .ok (some out) ∧
      (out.map BackendNode.path).Nodup ∧
      ∀ n, n ∈ out ↔ ∃ p data, n = .file p data.length ∧ b.fileAt p = some data ∧
        path <+: p ∧ p ≠ path) ∧
    (path = [] → ∃ out, b.crawl fuel path = .ok (some out) ∧ out.Perm b.readBackendDir) := by
  have hpaths : ∀ {out l : List BackendNode}, out.Perm l → l.Sublist b.readBackendDir →
      (out.map BackendNode.path).Nodup := fun hperm hsub =>
    (hperm.map _).nodup_iff.mpr (b.nodup_paths.sublist (hsub.map _))
  obtain ⟨out, hcrawl, hperm⟩ := crawl_perm hwf hdir hfuel
  obtain ⟨files, hrec, hpermF⟩ := listDirRecursive_perm hwf horder hdir hfuel
  refine ⟨⟨out, hcrawl, hpaths hperm List.filter_sublist, fun n => ?_⟩,
    ⟨files, hrec, hpaths hpermF (List.filter_sublist.trans List.filter_sublist), fun n => ?_⟩,
    fun hroot => ⟨out, hcrawl, ?_⟩⟩
  · rw [hperm.mem_iff, mem_below, mem_readBackendDir]
    constructor
    · rintro ⟨⟨entry, hlook, heq⟩, hpre, hne⟩
      exact ⟨n.path, entry, heq, hlook, hpre, hne⟩
    · rintro ⟨p, entry, rfl, hlook, hpre, hne⟩
      rw [BackendNode.path_ofEntry]
      exact ⟨⟨entry, hlook, rfl⟩, hpre, hne⟩
  · rw [hpermF.mem_iff, mem_filesBelow]
  · rwa [hroot, below_nil hwf] at hperm

/-- A directory with an empty file and one that is not. -/
def twoFiles : Files :=
  ((AList.insert [.normal [97]] Entry.dir ∅).insert [.normal [97], .normal [98]]
    (.file [1])).insert [.normal [97], .normal [99]] (.file [])

theorem listings_are_complete_twoFiles :
    ∃ out, twoFiles.listDirRecursive (fun _ nodes => nodes.reverse) 9 [.normal [97]] =
        .ok (some out) ∧
      (out.map BackendNode.path).Nodup ∧
      ∀ n, n ∈ out ↔ ∃ p data, n = .file p data.length ∧ twoFiles.fileAt p = some data ∧
        [.normal [97]] <+: p ∧ p ≠ [.normal [97]] :=
  (listings_are_complete twoFiles [.normal [97]] (fun _ nodes => nodes.reverse) 9
    (WF.of_toList (by decide) (by decide)) (Or.inr (by decide))
    (fun _ nodes => List.reverse_perm nodes) (by decide)).2.1

end Files

end Mapache
