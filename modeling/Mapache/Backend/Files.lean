import Mapache.Fs.Diff
import Mapache.Lib.Table

/-!
# A backend as a tree of files

The backend as `StorageBackend` shows it, with the behaviour of the local one: a finite map from
paths to directories and files. `remove` deletes a path with everything below it, `createDir` makes
all directories of a path, and `write` puts a file under its final name at once and makes the
directories above it. The last two fail where a file is in the way of a directory or the other way
round.
-/

set_option autoImplicit false

namespace Mapache

open Lib

/-- A directory or a file with its content. -/
inductive Entry where
  | dir
  | file (data : Bytes)
  deriving DecidableEq

/-- The files and directories below the root of a backend. -/
abbrev Files := Table Path Entry

namespace Files

/-- The content of the file at a path. -/
def fileAt (b : Files) (path : Path) : Option Bytes :=
  match b.lookup path with
  | some (.file data) => some data
  | _ => none

/-- The root is not an entry, and what lies above an entry is a directory. -/
structure WF (b : Files) : Prop where
  root : b.lookup [] = none
  above : ∀ path path' entry, b.lookup path' = some entry → path ≠ [] → path <+: path' →
    path ≠ path' → b.lookup path = some .dir

/-- `StorageBackend::remove`. -/
def remove (b : Files) (path : Path) : Files :=
  (b.keys.filter fun p => path <+: p).foldl (fun b p => b.erase p) b

/-- The directories of a path, from the top. -/
def dirsOf (path : Path) : List Path := path.inits.filter fun p => p ≠ []

/-- `StorageBackend::create_dir`. -/
def createDir (b : Files) (path : Path) : Option Files :=
  if (dirsOf path).all fun p => (b.fileAt p).isNone then
    some ((dirsOf path).foldl (fun b p => b.insert p .dir) b)
  else none

/-- `StorageBackend::write`. -/
def write (b : Files) (path : Path) (data : Bytes) : Option Files :=
  if b.lookup path = some .dir then none
  else (b.createDir path.dropLast).map fun b' => b'.insert path (.file data)

section Lemmas

variable {b b' : Files} {path p : Path}

theorem fileAt_eq_some {data : Bytes} : b.fileAt p = some data ↔ b.lookup p = some (.file data) := by
  unfold fileAt
  cases b.lookup p with
  | none => simp
  | some e => cases e <;> simp

theorem fileAt_eq_none : b.fileAt p = none ↔ b.lookup p = none ∨ b.lookup p = some .dir := by
  unfold fileAt
  cases b.lookup p with
  | none => simp
  | some e => cases e <;> simp

theorem lookup_foldl_insert (ps : List Path) (b : Files) :
    (ps.foldl (fun b p => b.insert p .dir) b).lookup p =
      if p ∈ ps then some .dir else b.lookup p := by
  induction ps generalizing b with
  | nil => simp
  | cons q ps ih =>
    rw [List.foldl_cons, ih, Table.lookup_insert_eq_ite]
    by_cases hq : p = q <;> by_cases hp : p ∈ ps <;> simp [hq, hp]

theorem lookup_remove (b : Files) (path p : Path) :
    (b.remove path).lookup p = if path <+: p then none else b.lookup p := by
  rw [remove, Table.lookup_foldl_erase]
  simp only [List.mem_filter, decide_eq_true_eq]
  by_cases hpre : path <+: p
  · rw [if_pos hpre]
    split
    · rfl
    · rename_i hnot
      have hkey : p ∉ b.keys := fun hmem => hnot ⟨hmem, hpre⟩
      exact AList.lookup_eq_none.mpr hkey
  · rw [if_neg hpre, if_neg fun h => hpre h.2]

theorem mem_dirsOf : p ∈ dirsOf path ↔ p <+: path ∧ p ≠ [] := by
  simp [dirsOf]

theorem lookup_createDir (h : b.createDir path = some b') :
    (∀ p, p <+: path → p ≠ [] → b.fileAt p = none) ∧
    ∀ p, b'.lookup p = if p <+: path ∧ p ≠ [] then some .dir else b.lookup p := by
  unfold createDir at h
  split at h
  · rename_i hall
    cases h
    refine ⟨fun p hp hne => ?_, fun p => ?_⟩
    · simpa using List.all_eq_true.mp hall p (mem_dirsOf.mpr ⟨hp, hne⟩)
    · rw [lookup_foldl_insert]
      simp only [mem_dirsOf]
  · cases h

/-- A write changes the path and makes the directories above it. -/
theorem lookup_write {data : Bytes} (h : b.write path data = some b') :
    b.lookup path ≠ some .dir ∧ (∀ p, p <+: path.dropLast → p ≠ [] → b.fileAt p = none) ∧
    ∀ p, b'.lookup p = if p = path then some (.file data)
      else if p <+: path.dropLast ∧ p ≠ [] then some .dir else b.lookup p := by
  unfold write at h
  split at h
  · cases h
  · rename_i hdir
    obtain ⟨c, hc, rfl⟩ := Option.map_eq_some_iff.mp h
    obtain ⟨hfree, hlook⟩ := lookup_createDir hc
    refine ⟨hdir, hfree, fun p => ?_⟩
    rw [Table.lookup_insert_eq_ite, hlook]

/-- It is enough to look at the directories above each entry. -/
theorem WF.of_toList (hroot : b.lookup [] = none)
    (h : ∀ e ∈ Table.toList b, ∀ p ∈ dirsOf e.1, p ≠ e.1 → b.lookup p = some .dir) : b.WF where
  root := hroot
  above := fun p p' entry hlook hne hpre hneq =>
    h (p', entry) (Table.mem_toList.mpr hlook) p (mem_dirsOf.mpr ⟨hpre, hne⟩) hneq

end Lemmas

end Files

/-! ## Listings -/

/-- An entry of a listing. -/
inductive BackendNode where
  | file (path : Path) (size : Nat)
  | dir (path : Path)
  deriving DecidableEq

namespace BackendNode

def path : BackendNode → Path
  | file path _ => path
  | dir path => path

/-- The node of an entry. -/
def ofEntry (path : Path) : Entry → BackendNode
  | .dir => dir path
  | .file data => file path data.length

@[simp] theorem path_ofEntry (p : Path) (e : Entry) : (ofEntry p e).path = p := by
  cases e <;> rfl

end BackendNode

/-- `read_backend_dir` from the root: every directory is listed once, so every entry is met. -/
def Files.readBackendDir (b : Files) : List BackendNode :=
  (Table.toList b).map fun e => .ofEntry e.1 e.2

theorem Files.mem_readBackendDir {b : Files} {n : BackendNode} :
    n ∈ b.readBackendDir ↔ ∃ entry, b.lookup n.path = some entry ∧ n = .ofEntry n.path entry := by
  rw [readBackendDir, List.mem_map]
  constructor
  · rintro ⟨⟨p, e⟩, hmem, rfl⟩
    have hlook := Table.mem_toList.mp hmem
    cases e with
    | dir => exact ⟨.dir, hlook, rfl⟩
    | file data => exact ⟨.file data, hlook, rfl⟩
  · rintro ⟨e, hlook, heq⟩
    exact ⟨(n.path, e), Table.mem_toList.mpr hlook, heq.symm⟩

theorem Files.nodup_paths (b : Files) : (b.readBackendDir.map BackendNode.path).Nodup := by
  have hpath : b.readBackendDir.map BackendNode.path = b.keys := by
    rw [readBackendDir, Table.toList, List.map_map, List.map_map]
    simp [Function.comp_def, AList.keys, List.keys]
  rw [hpath]
  exact b.keys_nodup

end Mapache
