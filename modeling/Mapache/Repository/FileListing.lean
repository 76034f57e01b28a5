import Mapache.Repository.FileStore

/-!
# Listing the files of a repository

`list_all_files`, the listings by extension and those of IDs of `repo.rs`, and `list_packs_and_trash`.

In a repository with its layout each listing of IDs gives the IDs of the files that are stored, each
once, and after any calls these are the files that the calls make of the map (`files_refine_map`).
-/

set_option autoImplicit false

namespace Mapache

open Lib

/-! ## Listings -/

section Listings

variable (b : Files) (order : List Path → List Path)

/-- The paths of the entries of a directory. -/
def listPaths (dir : Path) : Except StorageError (List Path) :=
  (b.listDir dir).map fun nodes => nodes.map BackendNode.path

/-- The results of the directories, in the order in which the calls for them end; the first error of
them is returned. -/
def collectPaths : List Path → Except StorageError (List Path)
  | [] => .ok []
  | dir :: dirs =>
    match listPaths b dir with
    | .error e => .error e
    | .ok paths => (collectPaths dirs).map (paths ++ ·)

/-- `list_all_files`; `order` is that in which the calls for the fanout directories end. -/
def listAllFiles (fileType : ContentIdType) : Except StorageError (List Path) :=
  match dirForType fileType with
  | some dir => listPaths b dir
  | none => collectPaths b (order fanoutDirs)

/-- `list_files_with_extension`. -/
def listFilesWithExtension (fileType : ContentIdType) (ext : Option Bytes) :
    Except StorageError (List Path) :=
  (listAllFiles b order fileType).map fun paths => paths.filter fun p => pathExtension p = ext

/-- `OsStr::to_str`. -/
def toStr (name : Bytes) : Option String :=
  if strBytes (toStringLossy name) = name then some (toStringLossy name) else none

/-- The text of a `MapacheError` of a listing. -/
def StorageError.text : StorageError → String
  | .common (.io message) => "I/O error: " ++ message
  | .common (.crypto message) => "cryptographic error: " ++ message
  | .common (.compression message) => "compression error: " ++ message
  | .common (.integrity message) => "data integrity error: " ++ message
  | .common (.format message) => "format error: " ++ message
  | .common (.internal message) => message
  | .common (.config message) => "configuration error: " ++ message
  | .backend message => "backend error: " ++ message
  | .repo message => "repository error: " ++ message
  | .notFound message => "not found: " ++ message
  | .snapshotNotFound message => "snapshot not found: " ++ message

/-- The error of a listing, with what the caller puts in front of it. -/
def listError (message : String) {α : Type} : Except StorageError α → Except StorageError α
  | .ok a => .ok a
  | .error e => .error (.backend (message ++ ": " ++ e.text))

/-- `list_snapshot_ids`. -/
def listSnapshotIds : Except StorageError (List ID) :=
  (listError "could not list snapshots" (listFilesWithExtension b order .snapshot none)).map
    fun paths => paths.filterMap fun p =>
      (fileName p).bind fun name => (toStr name).bind fun s => (ID.fromHex s).toOption

/-- `list_index_ids`. -/
def listIndexIds : Except StorageError (List ID) :=
  (listFilesWithExtension b order .index none).map fun paths => paths.filterMap fun p =>
    (fileName p).bind fun name => (ID.fromHex (toStringLossy name)).toOption

/-- `list_dropped_snapshot_ids`. -/
def listDroppedSnapshotIds : Except StorageError (List ID) :=
  (listError "failed to list files with the dropped snapshot extension"
    (listFilesWithExtension b order .snapshot (some repoDroppedExtension))).map
    fun paths => paths.filterMap fun p =>
      (fileName p).bind fun name => (toStr (fileStem name)).bind fun s => (ID.fromHex s).toOption

/-- One node of `list_packs_and_trash`. -/
def addPackOrTrash (found : List ID × List Path) (node : BackendNode) : List ID × List Path :=
  match fileName node.path with
  | none => found
  | some name =>
    match ID.fromHex (toStringLossy name) with
    | .ok id => (found.1.insert id, found.2)
    | .error _ =>
      match pathExtension node.path with
      | some ext =>
        if toStringLossy ext = "tmp" ∨ toStringLossy ext = "dropped" then
          (found.1, found.2 ++ [node.path])
        else found
      | none => found

/-- `list_packs_and_trash`; `nodeOrder` is the order in which the calls of the recursive listing
end. -/
def listPacksAndTrash (nodeOrder : Path → List BackendNode → List BackendNode) (fuel : Nat) :
    Except StorageError (Option (List ID × List Path)) :=
  (b.listDirRecursive nodeOrder fuel objectsDir).map fun nodes =>
    nodes.map fun nodes => nodes.foldl addPackOrTrash ([], [])

end Listings

/-! ## All files of a type -/

section Paths

variable {b : Files} {order : List Path → List Path} {dir : Path} {dirs : List Path}

/-- The paths of the entries of a directory, each once. -/
theorem listPaths_spec (h : b.IsDir dir) : ∃ paths, listPaths b dir = .ok paths ∧ paths.Nodup ∧
    ∀ p, p ∈ paths ↔ p ≠ [] ∧ p.dropLast = dir ∧ b.lookup p ≠ none := by
  refine ⟨(b.children dir).map BackendNode.path, ?_, ?_, fun p => ?_⟩
  · rw [listPaths, Files.listDir_of_isDir h]
    rfl
  · exact b.nodup_paths.sublist (List.filter_sublist.map _)
  · rw [List.mem_map]
    constructor
    · rintro ⟨n, hn, rfl⟩
      obtain ⟨hmem, hne, hdrop⟩ := Files.mem_children.mp hn
      obtain ⟨entry, hlook, -⟩ := Files.mem_readBackendDir.mp hmem
      exact ⟨hne, hdrop, by rw [hlook]; exact Option.some_ne_none _⟩
    · rintro ⟨hne, hdrop, hlook⟩
      obtain ⟨entry, hentry⟩ := Option.ne_none_iff_exists'.mp hlook
      refine ⟨.ofEntry p entry, Files.mem_children.mpr ?_, BackendNode.path_ofEntry p entry⟩
      rw [BackendNode.path_ofEntry]
      refine ⟨Files.mem_readBackendDir.mpr ⟨entry, ?_, ?_⟩, hne, hdrop⟩
      · rw [BackendNode.path_ofEntry, hentry]
      · rw [BackendNode.path_ofEntry]

/-- The entries of some directories. -/
theorem collectPaths_spec (h : ∀ dir ∈ dirs, b.IsDir dir) (hnodup : dirs.Nodup) :
    ∃ paths, collectPaths b dirs = .ok paths ∧ paths.Nodup ∧
      ∀ p, p ∈ paths ↔ p ≠ [] ∧ p.dropLast ∈ dirs ∧ b.lookup p ≠ none := by
  induction dirs with
  | nil => exact ⟨[], rfl, List.nodup_nil, fun p => by simp⟩
  | cons dir dirs ih =>
    obtain ⟨hnot, hnodup⟩ := List.nodup_cons.mp hnodup
    obtain ⟨paths, hlist, hpaths, hmem⟩ := listPaths_spec (h dir List.mem_cons_self)
    obtain ⟨rest, hcollect, hrest, hmem'⟩ := ih (fun d hd => h d (List.mem_cons_of_mem _ hd)) hnodup
    refine ⟨paths ++ rest, ?_, hpaths.append hrest fun p hp hp' => ?_, fun p => ?_⟩
    · rw [collectPaths, hlist, hcollect]
      rfl
    · have hdir := ((hmem p).mp hp).2.1
      exact hnot (hdir ▸ ((hmem' p).mp hp').2.1)
    · rw [List.mem_append, hmem, hmem', List.mem_cons]
      tauto

theorem fanoutName_inj {n m : Nat} (hn : n < 256) (hm : m < 256) (h : fanoutName n = fanoutName m) :
    n = m := by
  have hdigit : ∀ i < 16, ∀ j < 16, i.digitChar = j.digitChar → i = j := by decide
  have hchars := String.ofList_injective (strBytes_injective h)
  simp only [List.cons.injEq, and_true] at hchars
  have hhigh := hdigit _ (by omega) _ (by omega) hchars.1
  have hlow := hdigit _ (by omega) _ (by omega) hchars.2
  omega

theorem nodup_fanoutDirs : fanoutDirs.Nodup := by
  refine List.Nodup.map_on (fun n hn m hm h => ?_) List.nodup_range
  have hname := List.append_cancel_left h
  exact fanoutName_inj (List.mem_range.mp hn) (List.mem_range.mp hm)
    (Component.normal.inj (List.singleton_inj.mp hname))

/-- All files of a type, in any order of the calls. -/
theorem LaidOut.listAllFiles (h : LaidOut b) (horder : ∀ dirs, (order dirs).Perm dirs)
    (fileType : ContentIdType) :
    ∃ paths, listAllFiles b order fileType = .ok paths ∧ paths.Nodup ∧
      ∀ p, p ∈ paths ↔ p ≠ [] ∧ p.dropLast ∈ typeDirs fileType ∧ b.lookup p ≠ none := by
  cases hdir : dirForType fileType with
  | none =>
    have htype : typeDirs fileType = fanoutDirs := by rw [typeDirs, hdir]
    have hall : ∀ dir ∈ order fanoutDirs, b.IsDir dir := fun dir hmem =>
      Or.inr (h.dirs dir (List.mem_append_right _ ((horder _).mem_iff.mp hmem)))
    obtain ⟨paths, hcollect, hnodup, hmem⟩ :=
      collectPaths_spec hall ((horder _).nodup_iff.mpr nodup_fanoutDirs)
    refine ⟨paths, by rw [Mapache.listAllFiles, hdir, hcollect], hnodup, fun p => ?_⟩
    rw [hmem, (horder _).mem_iff, htype]
  | some dir =>
    have htype : typeDirs fileType = [dir] := by rw [typeDirs, hdir]
    have hmem : dir ∈ typeDirs fileType := htype ▸ List.mem_singleton_self dir
    obtain ⟨paths, hlist, hnodup, hpaths⟩ :=
      listPaths_spec (Or.inr (h.dirs dir (mem_repoDirs_of_typeDirs hmem)) : b.IsDir dir)
    refine ⟨paths, ?_, hnodup, fun p => ?_⟩
    · rw [Mapache.listAllFiles, hdir]
      exact hlist
    · rw [hpaths, htype, List.mem_singleton]

end Paths

/-! ## Names that are IDs -/

section Ids

variable {b : Files} {order : List Path → List Path} {fileType : ContentIdType} {id : ID}
  {ext : Option Extension} {p : Path} {name : Bytes}

/-- A name that is not its own stem is the stem, a dot and the extension. -/
theorem eq_fileStem_append (h : fileStem name ≠ name) :
    name = fileStem name ++ 46 :: name.drop ((fileStem name).length + 1) := by
  have hsplit := List.takeWhile_append_dropWhile (p := fun b => decide (b ≠ 46))
    (l := name.reverse)
  cases hdrop : name.reverse.dropWhile (fun b => decide (b ≠ 46)) with
  | nil =>
    refine absurd ?_ h
    rw [fileStem, hdrop]
    rfl
  | cons b rest =>
    have hb : b = 46 := by
      have hnot := List.head?_dropWhile_not (fun b => decide (b ≠ 46)) name.reverse
      rw [hdrop] at hnot
      simpa using hnot
    have hstem : fileStem name = rest.reverse := by
      have hne : rest.reverse ≠ [] := by
        intro hnil
        refine h ?_
        rw [fileStem, hdrop]
        simp [hnil]
      rw [fileStem, hdrop]
      simp [hne]
    rw [hdrop, hb] at hsplit
    have hname := congrArg List.reverse hsplit
    rw [List.reverse_append, List.reverse_cons, List.reverse_reverse, List.append_assoc] at hname
    generalize (name.reverse.takeWhile fun b => decide (b ≠ 46)).reverse = ext at hname
    rw [hstem, ← hname, List.drop_length_add_append]
    rfl

theorem eq_of_fileName (h : fileName p = some name) : p = p.dropLast ++ [.normal name] := by
  unfold fileName at h
  split at h
  · rename_i n hlast
    cases h
    exact (List.dropLast_append_getLast? _ hlast).symm
  · cases h

/-- **A path is read as the ID of a file only when it is the path of that file.** -/
theorem LaidOut.stem_iff (h : LaidOut b) (hdir : p.dropLast ∈ typeDirs fileType)
    (hlook : b.lookup p ≠ none) (hname : fileName p = some name)
    (hext : pathExtension p = ext.map Extension.bytes) :
    ID.fromHex (toStringLossy (fileStem name)) = .ok id ↔ p = RepoFile.path ⟨fileType, id, ext⟩ := by
  have hp := eq_of_fileName hname
  constructor
  · intro hid
    rw [hp] at hlook
    obtain ⟨hstem, hfile⟩ := (h.named fileType _ name id hdir hlook).2 hid
    rw [hp, hfile, RepoFile.path_eq, RepoFile.dir, RepoFile.name]
    refine congrArg (fun n => fileDir fileType id ++ [Component.normal n]) ?_
    rw [pathExtension, hname, Option.bind_some] at hext
    cases ext with
    | none =>
      have hself : fileStem name = name := by
        by_contra hne
        rw [if_neg hne] at hext
        cases hext
      rw [← hself, hstem]
      exact (List.append_nil _).symm
    | some e =>
      have hne : fileStem name ≠ name := by
        intro hself
        rw [if_pos hself] at hext
        cases hext
      rw [if_neg hne] at hext
      have hbytes : name.drop ((fileStem name).length + 1) = e.bytes := Option.some.inj hext
      rw [eq_fileStem_append hne, hbytes, hstem]
      exact congrArg _ (if_neg e.ne_nil).symm
  · intro heq
    have hfile := RepoFile.fileName_path ⟨fileType, id, ext⟩
    rw [← heq, hname] at hfile
    rw [Option.some.inj hfile, fileStem_name, fromHex_hexName]

theorem fileDir_mem (fileType : ContentIdType) (id : ID) : fileDir fileType id ∈ typeDirs fileType := by
  cases fileType with
  | pack => exact fanoutDir_mem id
  | snapshot | index | key | lock => exact List.mem_singleton_self _

/-- The paths with an extension, and what a reading of IDs that looks at the stems makes of them. -/
theorem LaidOut.ids (h : LaidOut b) (horder : ∀ dirs, (order dirs).Perm dirs)
    (fileType : ContentIdType) (ext : Option Extension) (idOf : Path → Option ID)
    (hnone : ∀ p, fileName p = none → idOf p = none)
    (hidOf : ∀ p name id, p.dropLast ∈ typeDirs fileType → b.lookup p ≠ none →
      fileName p = some name → pathExtension p = ext.map Extension.bytes →
      (idOf p = some id ↔ ID.fromHex (toStringLossy (fileStem name)) = .ok id)) :
    ∃ paths, listFilesWithExtension b order fileType (ext.map Extension.bytes) = .ok paths ∧
      (paths.filterMap idOf).Nodup ∧
      ∀ id, id ∈ paths.filterMap idOf ↔ (b.stored ⟨fileType, id, ext⟩).isSome := by
  obtain ⟨paths, hlist, hnodup, hmem⟩ := h.listAllFiles horder fileType
  -- a path of the listing stands for the file whose path it is
  have hread : ∀ p id, p ∈ paths → pathExtension p = ext.map Extension.bytes →
      (idOf p = some id ↔ p = RepoFile.path ⟨fileType, id, ext⟩) := by
    intro p id hp hext
    obtain ⟨-, hdir, hlook⟩ := (hmem p).mp hp
    cases hname : fileName p with
    | none =>
      rw [hnone p hname]
      refine ⟨nofun, fun heq => ?_⟩
      rw [heq, RepoFile.fileName_path] at hname
      cases hname
    | some name => rw [hidOf p name id hdir hlook hname hext, h.stem_iff hdir hlook hname hext]
  refine ⟨paths.filter fun p => pathExtension p = ext.map Extension.bytes, ?_, ?_, fun id => ?_⟩
  · rw [listFilesWithExtension, hlist]
    rfl
  · refine List.pairwise_filterMap.mpr ((hnodup.filter _).imp_of_mem ?_)
    intro p q hp hq hne id hid id' hid' heq
    obtain ⟨hp, hext⟩ := List.mem_filter.mp hp
    obtain ⟨hq, hext'⟩ := List.mem_filter.mp hq
    subst heq
    exact hne (((hread p id hp (of_decide_eq_true hext)).mp hid).trans
      ((hread q id hq (of_decide_eq_true hext')).mp hid').symm)
  · rw [List.mem_filterMap]
    constructor
    · rintro ⟨p, hp, hid⟩
      obtain ⟨hp, hext⟩ := List.mem_filter.mp hp
      have heq := (hread p id hp (of_decide_eq_true hext)).mp hid
      have hlook := ((hmem p).mp hp).2.2
      rw [heq] at hlook
      refine Option.isSome_iff_ne_none.mpr fun hstored => hlook ?_
      exact h.stored_eq_none hstored
    · intro hstored
      obtain ⟨data, hdata⟩ := Option.isSome_iff_exists.mp hstored
      have hext := RepoFile.pathExtension_path ⟨fileType, id, ext⟩
      have hp : RepoFile.path ⟨fileType, id, ext⟩ ∈ paths := by
        refine (hmem _).mpr ⟨RepoFile.path_ne_nil _, ?_, ?_⟩
        · rw [RepoFile.dropLast_path]
          exact fileDir_mem fileType id
        · rw [Files.fileAt_eq_some.mp hdata]
          exact Option.some_ne_none _
      exact ⟨_, List.mem_filter.mpr ⟨hp, decide_eq_true hext⟩, (hread _ id hp hext).mpr rfl⟩

end Ids

/-! ## Listings of IDs -/

/-- A listing gives the IDs with a property, each once. -/
def ListsIds (r : Except StorageError (List ID)) (P : ID → Prop) : Prop :=
  ∃ ids, r = .ok ids ∧ ids.Nodup ∧ ∀ id, id ∈ ids ↔ P id

/-- What `list_packs_and_trash` takes for trash. -/
def IsTrash (p : Path) : Prop :=
  (∃ name, fileName p = some name ∧ ∀ id, ID.fromHex (toStringLossy name) ≠ .ok id) ∧
    ∃ ext, pathExtension p = some ext ∧ (toStringLossy ext = "tmp" ∨ toStringLossy ext = "dropped")

section IdListings

variable {b : Files} {order : List Path → List Path} {fileType : ContentIdType} {id : ID}
  {p : Path} {name : Bytes}

theorem toOption_eq_some {r : Except MapacheError ID} : r.toOption = some id ↔ r = .ok id := by
  cases r <;> simp [Except.toOption]

theorem fileStem_of_pathExtension (hname : fileName p = some name) (hext : pathExtension p = none) :
    fileStem name = name := by
  by_contra hne
  rw [pathExtension, hname, Option.bind_some, if_neg hne] at hext
  cases hext

/-- It does not matter whether a name has to be a text. -/
theorem LaidOut.toStr_iff (h : LaidOut b) (id : ID) (hdir : p.dropLast ∈ typeDirs fileType)
    (hlook : b.lookup p ≠ none) (hname : fileName p = some name) :
    ((toStr (fileStem name)).bind fun s => (ID.fromHex s).toOption) = some id ↔
      ID.fromHex (toStringLossy (fileStem name)) = .ok id := by
  constructor
  · intro hid
    obtain ⟨s, hs, hid⟩ := Option.bind_eq_some_iff.mp hid
    unfold toStr at hs
    split at hs
    · cases hs
      exact toOption_eq_some.mp hid
    · cases hs
  · intro hid
    rw [eq_of_fileName hname] at hlook
    have hstem := ((h.named fileType _ name id hdir hlook).2 hid).1
    have hbytes : strBytes (toStringLossy (fileStem name)) = fileStem name := by
      rw [hstem, hexName, toStringLossy_strBytes]
    rw [toStr, if_pos hbytes, Option.bind_some]
    exact toOption_eq_some.mpr hid

theorem LaidOut.listSnapshotIds (h : LaidOut b) (horder : ∀ dirs, (order dirs).Perm dirs) :
    ListsIds (listSnapshotIds b order) fun id => (b.stored ⟨.snapshot, id, none⟩).isSome := by
  obtain ⟨paths, hlist, hnodup, hmem⟩ := h.ids horder .snapshot none
    (fun p => (fileName p).bind fun name =>
      (toStr name).bind fun s => (ID.fromHex s).toOption)
    (fun p hname => by rw [hname]; rfl)
    fun p name id hdir hlook hname hext => by
      rw [hname, Option.bind_some]
      have hstem := fileStem_of_pathExtension hname hext
      have hiff := h.toStr_iff id hdir hlook hname
      rwa [hstem] at hiff ⊢
  refine ⟨_, ?_, hnodup, hmem⟩
  rw [Mapache.listSnapshotIds]
  exact congrArg (fun r => (listError "could not list snapshots" r).map _) hlist

theorem LaidOut.listIndexIds (h : LaidOut b) (horder : ∀ dirs, (order dirs).Perm dirs) :
    ListsIds (listIndexIds b order) fun id => (b.stored ⟨.index, id, none⟩).isSome := by
  obtain ⟨paths, hlist, hnodup, hmem⟩ := h.ids horder .index none
    (fun p => (fileName p).bind fun name => (ID.fromHex (toStringLossy name)).toOption)
    (fun p hname => by rw [hname]; rfl)
    fun p name id hdir hlook hname hext => by
      rw [hname, Option.bind_some, fileStem_of_pathExtension hname hext]
      exact toOption_eq_some
  refine ⟨_, ?_, hnodup, hmem⟩
  rw [Mapache.listIndexIds]
  exact congrArg (Except.map _) hlist

theorem LaidOut.listDroppedSnapshotIds (h : LaidOut b) (horder : ∀ dirs, (order dirs).Perm dirs) :
    ListsIds (listDroppedSnapshotIds b order)
      fun id => (b.stored ⟨.snapshot, id, some .dropped⟩).isSome := by
  obtain ⟨paths, hlist, hnodup, hmem⟩ := h.ids horder .snapshot (some .dropped)
    (fun p => (fileName p).bind fun name =>
      (toStr (fileStem name)).bind fun s => (ID.fromHex s).toOption)
    (fun p hname => by rw [hname]; rfl)
    fun p name id hdir hlook hname hext => by
      rw [hname, Option.bind_some]
      exact h.toStr_iff id hdir hlook hname
  refine ⟨_, ?_, hnodup, hmem⟩
  rw [Mapache.listDroppedSnapshotIds]
  exact congrArg (fun r => (listError _ r).map _) hlist

end IdListings

/-! ## Packs and trash -/

/-- The name of a path is read as an ID. -/
def IsPack (p : Path) (id : ID) : Prop :=
  ∃ name, fileName p = some name ∧ ID.fromHex (toStringLossy name) = .ok id

section Packs

variable {b : Files} {found : List ID × List Path} {node : BackendNode} {id : ID} {p : Path}

/-- What a node is taken for. -/
theorem addPackOrTrash_cases (found : List ID × List Path) (node : BackendNode) :
    (∃ id, IsPack node.path id ∧ addPackOrTrash found node = (found.1.insert id, found.2)) ∨
    (IsTrash node.path ∧ addPackOrTrash found node = (found.1, found.2 ++ [node.path])) ∨
    ((∀ id, ¬ IsPack node.path id) ∧ ¬ IsTrash node.path ∧ addPackOrTrash found node = found) := by
  unfold addPackOrTrash
  cases hname : fileName node.path with
  | none =>
    refine Or.inr (Or.inr ⟨?_, ?_, rfl⟩)
    · rintro id ⟨name, hname', -⟩
      rw [hname] at hname'
      cases hname'
    · rintro ⟨⟨name, hname', -⟩, -⟩
      rw [hname] at hname'
      cases hname'
  | some name =>
    dsimp only
    cases hid : ID.fromHex (toStringLossy name) with
    | ok id => exact Or.inl ⟨id, ⟨name, hname, hid⟩, rfl⟩
    | error e =>
      have hpack : ∀ id, ¬ IsPack node.path id := by
        rintro id ⟨name', hname', hid'⟩
        rw [hname] at hname'
        cases hname'
        rw [hid] at hid'
        cases hid'
      have hnot : ∀ id, ID.fromHex (toStringLossy name) ≠ .ok id := fun id hid' =>
        hpack id ⟨name, hname, hid'⟩
      dsimp only
      cases hext : pathExtension node.path with
      | none =>
        refine Or.inr (Or.inr ⟨hpack, ?_, rfl⟩)
        rintro ⟨-, ext, hext', -⟩
        rw [hext] at hext'
        cases hext'
      | some ext =>
        dsimp only
        split
        · rename_i htrash
          exact Or.inr (Or.inl ⟨⟨⟨name, hname, hnot⟩, ext, hext, htrash⟩, rfl⟩)
        · rename_i htrash
          refine Or.inr (Or.inr ⟨hpack, ?_, rfl⟩)
          rintro ⟨-, ext', hext', htrash'⟩
          rw [hext] at hext'
          cases hext'
          exact htrash htrash'

theorem not_isPack_of_isTrash (h : IsTrash p) (id : ID) : ¬ IsPack p id := by
  rintro ⟨name, hname, hid⟩
  obtain ⟨⟨name', hname', hnot⟩, -⟩ := h
  rw [hname] at hname'
  cases hname'
  exact hnot id hid

theorem isPack_unique {id' : ID} (h : IsPack p id) (h' : IsPack p id') : id = id' := by
  obtain ⟨name, hname, hid⟩ := h
  obtain ⟨name', hname', hid'⟩ := h'
  rw [hname] at hname'
  cases hname'
  exact Except.ok.inj (hid.symm.trans hid')

/-- What a node adds. -/
theorem addPackOrTrash_spec (found : List ID × List Path) (node : BackendNode) :
    (found.1.Nodup → (addPackOrTrash found node).1.Nodup) ∧
    (∀ id, id ∈ (addPackOrTrash found node).1 ↔ id ∈ found.1 ∨ IsPack node.path id) ∧
    (addPackOrTrash found node).2.Sublist (found.2 ++ [node.path]) ∧
    ∀ p, p ∈ (addPackOrTrash found node).2 ↔ p ∈ found.2 ∨ node.path = p ∧ IsTrash p := by
  rcases addPackOrTrash_cases found node with ⟨id, hpack, heq⟩ | ⟨htrash, heq⟩ | ⟨hpack, htrash, heq⟩
  · rw [heq]
    refine ⟨fun h => h.insert, fun id' => ?_, List.sublist_append_left _ _, fun p => ?_⟩
    · have hself : IsPack node.path id' ↔ id' = id :=
        ⟨fun h => isPack_unique h hpack, fun h => h ▸ hpack⟩
      rw [List.mem_insert_iff, hself, or_comm]
    · have hself : ¬ (node.path = p ∧ IsTrash p) := fun h =>
        not_isPack_of_isTrash (h.1 ▸ h.2) id hpack
      rw [or_iff_left hself]
  · rw [heq]
    refine ⟨fun h => h, fun id => ?_, List.Sublist.refl _, fun p => ?_⟩
    · rw [or_iff_left (not_isPack_of_isTrash htrash id)]
    · have hself : (node.path = p ∧ IsTrash p) ↔ p = node.path :=
        ⟨fun h => h.1.symm, fun h => ⟨h.symm, h ▸ htrash⟩⟩
      rw [List.mem_append, List.mem_singleton, hself]
  · rw [heq]
    refine ⟨fun h => h, fun id => ?_, List.sublist_append_left _ _, fun p => ?_⟩
    · rw [or_iff_left (hpack id)]
    · have hself : ¬ (node.path = p ∧ IsTrash p) := fun h => htrash (h.1 ▸ h.2)
      rw [or_iff_left hself]

/-- The loop over the nodes. -/
theorem foldl_addPackOrTrash (nodes : List BackendNode) (found : List ID × List Path)
    (hnodup : found.1.Nodup) :
    (nodes.foldl addPackOrTrash found).1.Nodup ∧
    (∀ id, id ∈ (nodes.foldl addPackOrTrash found).1 ↔
      id ∈ found.1 ∨ ∃ n ∈ nodes, IsPack n.path id) ∧
    (nodes.foldl addPackOrTrash found).2.Sublist (found.2 ++ nodes.map BackendNode.path) ∧
    ∀ p, p ∈ (nodes.foldl addPackOrTrash found).2 ↔
      p ∈ found.2 ∨ ∃ n ∈ nodes, n.path = p ∧ IsTrash p := by
  induction nodes generalizing found with
  | nil => simpa using hnodup
  | cons node nodes ih =>
    obtain ⟨hstep, hpacks, hsub, htrash⟩ := addPackOrTrash_spec found node
    obtain ⟨hnodup', hpacks', hsub', htrash'⟩ := ih (addPackOrTrash found node) (hstep hnodup)
    rw [List.foldl_cons]
    refine ⟨hnodup', fun id => ?_, ?_, fun p => ?_⟩
    · rw [hpacks', hpacks, List.exists_mem_cons_iff, or_assoc]
    · refine hsub'.trans ?_
      rw [List.map_cons, List.append_cons]
      exact hsub.append_right _
    · rw [htrash', htrash, List.exists_mem_cons_iff, or_assoc]

theorem LaidOut.isDir_objectsDir (h : LaidOut b) : b.IsDir objectsDir := by
  have hfanout := h.dirs (fanoutDir 0) (List.mem_append_right _ (fanoutDir_mem 0))
  exact Or.inr (h.wf.above objectsDir _ .dir hfanout (List.cons_ne_nil _ _)
    ⟨_, rfl⟩ (by simp [fanoutDir]))

/-- A file below `objects` is in a fanout directory. -/
theorem LaidOut.dropLast_mem_fanoutDirs (h : LaidOut b) {data : Bytes}
    (hlook : b.lookup p = some (.file data)) (hpre : objectsDir <+: p) : p.dropLast ∈ fanoutDirs := by
  rcases h.objects p _ hlook hpre with rfl | hmem | hmem
  · rcases h.isDir_objectsDir with hnil | hobj
    · cases hnil
    · rw [hobj] at hlook
      cases hlook
  · rw [h.dirs p (List.mem_append_right _ hmem)] at hlook
    cases hlook
  · exact hmem

/-- What is in one of the directories is a file. -/
theorem LaidOut.isSome_fileAt (h : LaidOut b) (hdir : p.dropLast ∈ repoDirs)
    (hlook : b.lookup p ≠ none) : (b.fileAt p).isSome := by
  rw [Files.fileAt]
  cases hp : b.lookup p with
  | none => exact absurd hp hlook
  | some entry =>
    cases entry with
    | dir => exact absurd hp (h.flat p hdir)
    | file data => rfl

/-- A file below `objects` whose name is read as an ID is the pack of that ID. -/
theorem LaidOut.isPack_iff (h : LaidOut b) {data : Bytes} (hfile : b.fileAt p = some data)
    (hpre : objectsDir <+: p) : IsPack p id ↔ p = RepoFile.path ⟨.pack, id, none⟩ := by
  constructor
  · rintro ⟨name, hname, hid⟩
    have hlook := Files.fileAt_eq_some.mp hfile
    have hdir : p.dropLast ∈ fanoutDirs := h.dropLast_mem_fanoutDirs hlook hpre
    have hp := eq_of_fileName hname
    have hsome : b.lookup (p.dropLast ++ [.normal name]) ≠ none := by
      rw [← hp, hlook]
      exact Option.some_ne_none _
    obtain ⟨hhex, hdir'⟩ := (h.named .pack _ name id hdir hsome).1 hid
    rw [hp, hdir', hhex]
    exact getPath_eq_path .pack id
  · rintro rfl
    refine ⟨_, RepoFile.fileName_path _, ?_⟩
    rw [RepoFile.name, extensionBytes_eq_nil.mpr rfl, if_pos rfl, List.append_nil, fromHex_hexName]

theorem LaidOut.listPacksAndTrash (h : LaidOut b)
    {nodeOrder : Path → List BackendNode → List BackendNode} {fuel : Nat}
    (horder : ∀ p nodes, (nodeOrder p nodes).Perm nodes)
    (hfuel : (b.below objectsDir).length < fuel) :
    ∃ packs trash, listPacksAndTrash b nodeOrder fuel = .ok (some (packs, trash)) ∧
      packs.Nodup ∧ (∀ id, id ∈ packs ↔ (b.stored ⟨.pack, id, none⟩).isSome) ∧
      trash.Nodup ∧
      ∀ p, p ∈ trash ↔ (b.fileAt p).isSome ∧ objectsDir <+: p ∧ IsTrash p := by
  obtain ⟨nodes, hlist, hperm⟩ := Files.listDirRecursive_perm h.wf horder h.isDir_objectsDir hfuel
  obtain ⟨hpacks, hpack, hsub, htrash⟩ := foldl_addPackOrTrash nodes ([], []) List.nodup_nil
  have hnodup : (nodes.map BackendNode.path).Nodup := (hperm.map _).nodup_iff.mpr
    (b.nodup_paths.sublist ((List.filter_sublist.trans List.filter_sublist).map _))
  -- the nodes are the files below `objects`
  have hnode : ∀ p, (∃ n ∈ nodes, n.path = p) ↔ (b.fileAt p).isSome ∧ objectsDir <+: p := by
    intro p
    constructor
    · rintro ⟨n, hn, rfl⟩
      obtain ⟨p, data, rfl, hfile, hpre, -⟩ := Files.mem_filesBelow.mp (hperm.mem_iff.mp hn)
      exact ⟨Option.isSome_iff_exists.mpr ⟨data, hfile⟩, hpre⟩
    · rintro ⟨hfile, hpre⟩
      obtain ⟨data, hdata⟩ := Option.isSome_iff_exists.mp hfile
      refine ⟨.file p data.length, hperm.mem_iff.mpr (Files.mem_filesBelow.mpr
        ⟨p, data, rfl, hdata, hpre, fun heq => ?_⟩), rfl⟩
      have hlook := Files.fileAt_eq_some.mp hdata
      rcases h.isDir_objectsDir with hnil | hobj
      · cases hnil
      · rw [heq, hobj] at hlook
        cases hlook
  refine ⟨_, _, by rw [Mapache.listPacksAndTrash, hlist]; rfl, hpacks, fun id => ?_,
    hsub.nodup hnodup, fun p => ?_⟩
  · rw [hpack]
    constructor
    · rintro (hnil | ⟨n, hn, hid⟩)
      · cases hnil
      · obtain ⟨hfile, hpre⟩ := (hnode n.path).mp ⟨n, hn, rfl⟩
        obtain ⟨data, hdata⟩ := Option.isSome_iff_exists.mp hfile
        rw [(h.isPack_iff hdata hpre).mp hid] at hfile
        exact hfile
    · intro hstored
      obtain ⟨data, hdata⟩ := Option.isSome_iff_exists.mp hstored
      have hpre : objectsDir <+: RepoFile.path ⟨.pack, id, none⟩ := by
        rw [← getPath_eq_path]
        exact ⟨_, rfl⟩
      obtain ⟨n, hn, hpath⟩ := (hnode _).mpr ⟨hstored, hpre⟩
      refine Or.inr ⟨n, hn, ?_⟩
      rw [hpath]
      exact (h.isPack_iff hdata hpre).mpr rfl
  · rw [htrash]
    constructor
    · rintro (hnil | ⟨n, hn, rfl, hp⟩)
      · cases hnil
      · obtain ⟨hfile, hpre⟩ := (hnode n.path).mp ⟨n, hn, rfl⟩
        exact ⟨hfile, hpre, hp⟩
    · rintro ⟨hfile, hpre, hp⟩
      obtain ⟨n, hn, hpath⟩ := (hnode p).mpr ⟨hfile, hpre⟩
      exact Or.inr ⟨n, hn, hpath, hp⟩

end Packs

/-! ## Runs -/

/-- **The files of a repository are a map.** After any calls on a repository with its layout the
files are those that the calls make of the map, and the next call succeeds exactly when it does on the
map. The listings give the IDs of the snapshots, the dropped snapshots, the index files and the packs
of the map, each once, and as trash the other files below `objects` with one of the two extensions, in
whatever order the calls to the backend end. -/
theorem files_refine_map (storage : SecureStorage) (fromContent : Bytes → ID) (b : Files)
    (calls : List FileCall) (order : List Path → List Path)
    (nodeOrder : Path → List BackendNode → List BackendNode) (fuel : Nat) (h : LaidOut b)
    (horder : ∀ dirs, (order dirs).Perm dirs)
    (hnodes : ∀ p nodes, (nodeOrder p nodes).Perm nodes)
    (hfuel : ((b.execAll storage fromContent calls).below objectsDir).length < fuel) :
    let after := b.execAll storage fromContent calls
    let stored := b.stored.execAll storage fromContent calls
    after.stored = stored ∧
    (∀ call, (after.exec storage fromContent call).isSome =
      (stored.exec storage fromContent call).isSome) ∧
    ListsIds (listSnapshotIds after order) (fun id => (stored ⟨.snapshot, id, none⟩).isSome) ∧
    ListsIds (listDroppedSnapshotIds after order)
      (fun id => (stored ⟨.snapshot, id, some .dropped⟩).isSome) ∧
    ListsIds (listIndexIds after order) (fun id => (stored ⟨.index, id, none⟩).isSome) ∧
    ∃ packs trash, listPacksAndTrash after nodeOrder fuel = .ok (some (packs, trash)) ∧
      packs.Nodup ∧ (∀ id, id ∈ packs ↔ (stored ⟨.pack, id, none⟩).isSome) ∧ trash.Nodup ∧
      ∀ p, p ∈ trash ↔ (after.fileAt p).isSome ∧ objectsDir <+: p ∧ IsTrash p := by
  intro after stored
  obtain ⟨hlaid, hstored⟩ := h.execAll storage fromContent calls
  have hstored : after.stored = stored := hstored
  refine ⟨hstored, fun call => ?_, ?_, ?_, ?_, ?_⟩
  · have hcall := hlaid.exec storage fromContent call
    rw [← hstored]
    generalize after.exec storage fromContent call = r at hcall ⊢
    generalize after.stored.exec storage fromContent call = r' at hcall ⊢
    cases hcall <;> rfl
  · rw [← hstored]
    exact hlaid.listSnapshotIds horder
  · rw [← hstored]
    exact hlaid.listDroppedSnapshotIds horder
  · rw [← hstored]
    exact hlaid.listIndexIds horder
  · rw [← hstored]
    exact hlaid.listPacksAndTrash hnodes hfuel

/-- Two snapshots are saved and one of them is dropped. -/
def sampleCalls : List FileCall :=
  [.save (.withID 1) [1] sampleNonce .snapshot none, .save (.withID 2) [2] sampleNonce .snapshot none,
    .setExtension .snapshot 1 (some .dropped)]

theorem files_refine_map_sampleCalls :
    let after := emptyRepo.execAll headerStorage (fun _ => 0) sampleCalls
    let stored := emptyRepo.stored.execAll headerStorage (fun _ => 0) sampleCalls
    ListsIds (listSnapshotIds after List.reverse) (fun id => (stored ⟨.snapshot, id, none⟩).isSome) ∧
    ListsIds (listDroppedSnapshotIds after List.reverse)
      (fun id => (stored ⟨.snapshot, id, some .dropped⟩).isSome) := by
  intro after stored
  obtain ⟨fuel, hfuel⟩ := exists_gt (after.below objectsDir).length
  obtain ⟨-, -, hsnapshots, hdropped, -⟩ := files_refine_map headerStorage (fun _ => 0) emptyRepo
    sampleCalls List.reverse (fun _ nodes => nodes) fuel laidOut_emptyRepo List.reverse_perm
    (fun _ _ => .refl _) hfuel
  exact ⟨hsnapshots, hdropped⟩

end Mapache
