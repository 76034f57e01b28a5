import Mapache.Bundle.Writer
import Mapache.Repository.Layout
import Mapache.Repository.PackStats

/-!
# The files of a repository as a map

The functions of `repo.rs` on whole files: `save_file`, `load_file`, `delete_file`, `set_extension`,
`remove_snapshot` and `recall_dropped_snapshot`. They work on paths; what the rest of the program
relies on is a map from files (`RepoFile`) to contents. `Stored.exec` says what each of them does to
that map, and `LaidOut` what keeps the two in step: the directories are there, they hold no
directories, and a name that can be read as an ID is the name of a file.

Any sequence of these calls, those of several commands mixed, does to the map what `Stored.exec` says
(`LaidOut.execAll`). In particular a saved file is loaded as it was saved until a call for the same
file comes (`loadFile_saveFile`).
-/

set_option autoImplicit false

namespace Mapache

open Lib

/-! ## Calls of the backend -/

namespace Files

/-- `lstat`, as far as the size of a file; that of a directory is not asked for. -/
def lstat (b : Files) (path : Path) : Except StorageError (Option Nat) :=
  match b.lookup path with
  | some (.file data) => .ok (some data.length)
  | some .dir => .ok none
  | none => .error (.backend ("lstat failed for " ++ displayPath path ++ ": " ++ b.notADirectory path))

/-- The error of `rename`. -/
def renameError (src dst : Path) (message : String) : StorageError :=
  .backend ("could not rename '" ++ displayPath src ++ "' to '" ++ displayPath dst ++
    "' in local backend: " ++ message)

/-- `rename`, of a file. -/
def rename (b : Files) (src dst : Path) : Except StorageError Files :=
  match b.lookup src with
  | none => .error (renameError src dst (b.notADirectory src))
  | some .dir => .error (renameError src dst "Is a directory (os error 21)")
  | some (.file data) =>
    if src = dst then .ok b
    else if b.IsDir dst then .error (renameError src dst "Is a directory (os error 21)")
    else if b.IsDir dst.dropLast then .ok ((b.erase src).insert dst (.file data))
    else .error (renameError src dst (b.notADirectory dst.dropLast))

end Files

/-! ## Calls of the repository -/

section Calls

variable (storage : SecureStorage) (fromContent : Bytes → ID)

/-- What `save_file` writes: a pack as it is, a keyfile compressed, everything else encoded. -/
def encodeFile (nonce : Nonce) (data : Bytes) : ContentIdType → Option Bytes
  | .pack => some data
  | .key => storage.compress data
  | _ => storage.encode nonce data

/-- What `load_file` returns of the bytes of a file. -/
def decodeFile (data : Bytes) : ContentIdType → Option Bytes
  | .pack => some data
  | .key => storage.decompress data
  | _ => storage.decodeOwned data

/-- The path of `save_file`, `load_file` and `delete_file`. -/
def filePath (fileType : ContentIdType) (id : ID) (ext : Option Extension) : Path :=
  withExtension (getPath fileType id) (extensionBytes ext)

/-- The ID that `save_file` gives to what it writes. -/
def SaveID.resolve (saveId : SaveID) (bytes : Bytes) : ID :=
  match saveId with
  | .calculateID => fromContent bytes
  | .withID id => id

/-- `save_file`, with the nonce it draws. -/
def saveFile (b : Files) (saveId : SaveID) (data : Bytes) (nonce : Nonce)
    (fileType : ContentIdType) (ext : Option Extension) : Option (Files × ID × SizePair) :=
  (encodeFile storage nonce data fileType).bind fun bytes =>
    let id := saveId.resolve fromContent bytes
    (b.write (filePath fileType id ext) bytes).map fun b' => (b', id, ⟨data.length, bytes.length⟩)

/-- `load_file`. -/
def loadFile (b : Files) (fileType : ContentIdType) (id : ID) (ext : Option Extension) :
    Option Bytes :=
  (b.fileAt (filePath fileType id ext)).bind fun data => decodeFile storage (readAt data 0 0) fileType

/-- `delete_file`: the size of the file that was there. -/
def deleteFile (b : Files) (fileType : ContentIdType) (id : ID) (ext : Option Extension) :
    Except StorageError (Files × Nat) :=
  match b.lstat (filePath fileType id ext) with
  | .error e => .error e
  | .ok size => .ok (b.remove (filePath fileType id ext), size.getD 0)

/-- `set_extension`. -/
def setExtension (b : Files) (fileType : ContentIdType) (id : ID) (ext : Option Extension) :
    Except StorageError Files :=
  b.rename (getPath fileType id) (withExtension (getPath fileType id) (extensionBytes ext))

/-- `remove_snapshot`. -/
def removeSnapshot (b : Files) (id : ID) : Except StorageError Files :=
  let snapshotPath := snapshotsDir ++ [.normal (hexName id)]
  if (b.lookup snapshotPath).isNone then
    .error (.snapshotNotFound ("snapshot " ++ id.toHex ++ " doesn't exist"))
  else .ok (b.remove snapshotPath)

/-- `recall_dropped_snapshot`. -/
def recallDroppedSnapshot (b : Files) (id : ID) : Except StorageError Files :=
  let path := getPath .snapshot id
  b.rename (withExtension path repoDroppedExtension) path

end Calls

/-! ## The map -/

/-- The contents of the files. -/
abbrev Stored := RepoFile → Option Bytes

/-- The files of a backend. -/
def Files.stored (b : Files) : Stored := fun file => b.fileAt file.path

/-- A call that may change a file. -/
inductive FileCall where
  | save (saveId : SaveID) (data : Bytes) (nonce : Nonce) (fileType : ContentIdType)
      (ext : Option Extension)
  | delete (fileType : ContentIdType) (id : ID) (ext : Option Extension)
  | setExtension (fileType : ContentIdType) (id : ID) (ext : Option Extension)
  | removeSnapshot (id : ID)
  | recallDroppedSnapshot (id : ID)

section Calls

variable (storage : SecureStorage) (fromContent : Bytes → ID)

/-- The backend after a call, if it succeeds. -/
def Files.exec (b : Files) : FileCall → Option Files
  | .save saveId data nonce fileType ext =>
    (saveFile storage fromContent b saveId data nonce fileType ext).map Prod.fst
  | .delete fileType id ext => (deleteFile b fileType id ext).toOption.map Prod.fst
  | .setExtension fileType id ext => (setExtension b fileType id ext).toOption
  | .removeSnapshot id => (removeSnapshot b id).toOption
  | .recallDroppedSnapshot id => (recallDroppedSnapshot b id).toOption

/-- The backend after some calls, of which those that fail change nothing. -/
def Files.execAll (b : Files) (calls : List FileCall) : Files :=
  calls.foldl (fun b call => (b.exec storage fromContent call).getD b) b

namespace Stored

/-- A file gets another name. -/
def move (stored : Stored) (src dst : RepoFile) : Option Stored :=
  (stored src).map fun data =>
    Function.update (Function.update stored src none) dst (some data)

/-- A file is removed. -/
def drop (stored : Stored) (file : RepoFile) : Option Stored :=
  (stored file).map fun _ => Function.update stored file none

/-- What a call does to the map. -/
def exec (stored : Stored) : FileCall → Option Stored
  | .save saveId data nonce fileType ext =>
    (encodeFile storage nonce data fileType).map fun bytes =>
      Function.update stored ⟨fileType, saveId.resolve fromContent bytes, ext⟩ (some bytes)
  | .delete fileType id ext => stored.drop ⟨fileType, id, ext⟩
  | .setExtension fileType id ext => stored.move ⟨fileType, id, none⟩ ⟨fileType, id, ext⟩
  | .removeSnapshot id => stored.drop ⟨.snapshot, id, none⟩
  | .recallDroppedSnapshot id =>
    stored.move ⟨.snapshot, id, some .dropped⟩ ⟨.snapshot, id, none⟩

/-- What some calls do to the map. -/
def execAll (stored : Stored) (calls : List FileCall) : Stored :=
  calls.foldl (fun stored call => (stored.exec storage fromContent call).getD stored) stored

end Stored

end Calls

/-! ## The layout is kept -/

/-- The directories in which the files of a type are. -/
def typeDirs (fileType : ContentIdType) : List Path :=
  match dirForType fileType with
  | some dir => [dir]
  | none => fanoutDirs

/-- What every call keeps. -/
structure LaidOut (b : Files) : Prop where
  wf : b.WF
  /-- The directories of the files are there. -/
  dirs : ∀ dir ∈ repoDirs, b.lookup dir = some .dir
  /-- They hold no directories. -/
  flat : ∀ p, p.dropLast ∈ repoDirs → b.lookup p ≠ some .dir
  /-- What they hold has a name. -/
  normal : ∀ p, p.dropLast ∈ repoDirs → b.lookup p ≠ none → (fileName p).isSome
  /-- A name, and a name without its extension, that is read as an ID is the name of that ID, and in
  its directory. -/
  named : ∀ fileType dir name id, dir ∈ typeDirs fileType → b.lookup (dir ++ [.normal name]) ≠ none →
    (ID.fromHex (toStringLossy name) = .ok id → name = hexName id ∧ dir = fileDir fileType id) ∧
    (ID.fromHex (toStringLossy (fileStem name)) = .ok id →
      fileStem name = hexName id ∧ dir = fileDir fileType id)
  /-- Nothing else is below `objects`. -/
  objects : ∀ p entry, b.lookup p = some entry → objectsDir <+: p →
    p = objectsDir ∨ p ∈ fanoutDirs ∨ p.dropLast ∈ fanoutDirs

section LaidOut

variable {b b' : Files} {file src dst : RepoFile} {p : Path}

theorem LaidOut.lookup_path_ne (h : LaidOut b) (file : RepoFile) : b.lookup file.path ≠ some .dir :=
  h.flat _ (file.dropLast_path ▸ file.dir_mem)

/-- The directories above a file. -/
theorem LaidOut.lookup_above (h : LaidOut b) (file : RepoFile) (hpre : p <+: file.dir) (hne : p ≠ []) :
    b.lookup p = some .dir := by
  by_cases heq : p = file.dir
  · rw [heq]
    exact h.dirs _ file.dir_mem
  · exact h.wf.above p file.dir .dir (h.dirs _ file.dir_mem) hne hpre heq

/-- Nothing is below a file. -/
theorem LaidOut.lookup_below (h : LaidOut b) (hpre : file.path <+: p) (hne : p ≠ file.path) :
    b.lookup p = none := by
  cases hlook : b.lookup p with
  | none => rfl
  | some entry =>
    exact absurd (h.wf.above file.path p entry hlook file.path_ne_nil hpre (Ne.symm hne))
      (h.lookup_path_ne file)

theorem mem_repoDirs_of_typeDirs {fileType : ContentIdType} {dir : Path}
    (h : dir ∈ typeDirs fileType) : dir ∈ repoDirs := by
  cases fileType with
  | pack => exact List.mem_append_right _ h
  | snapshot | index | key | lock =>
    cases List.mem_singleton.mp h
    simp [repoDirs]

/-- The directories of one type are below one directory. -/
theorem head?_of_typeDirs {fileType : ContentIdType} {dir : Path} (h : dir ∈ typeDirs fileType) :
    dir.head? = (topDir fileType).head? := by
  cases fileType with
  | pack =>
    obtain ⟨n, -, rfl⟩ := List.mem_map.mp h
    rfl
  | snapshot | index | key | lock =>
    cases List.mem_singleton.mp h
    rfl

theorem fileType_eq_of_mem {fileType fileType' : ContentIdType} {id : ID}
    (h : fileDir fileType id ∈ typeDirs fileType') : fileType = fileType' := by
  have hhead : (topDir fileType).head? = (topDir fileType').head? := by
    rw [← head?_fileDir fileType id, head?_of_typeDirs h]
  revert hhead
  cases fileType <;> cases fileType' <;> decide

/-- The name of a file is read as its ID or as none. -/
theorem RepoFile.fromHex_name {id : ID} (h : ID.fromHex (toStringLossy file.name) = .ok id) :
    file.name = hexName id ∧ file.id = id := by
  rw [RepoFile.name] at h ⊢
  split at h
  · rename_i hext
    rw [List.append_nil, fromHex_hexName] at h
    cases h
    rw [if_pos hext, List.append_nil]
    exact ⟨rfl, rfl⟩
  · exact absurd h (fromHex_append_dot _ _ _)

theorem RepoFile.eq_of_path {dir : Path} {name : Bytes} (h : dir ++ [.normal name] = file.path) :
    dir = file.dir ∧ name = file.name := by
  rw [file.path_eq] at h
  obtain ⟨hdir, hname⟩ := List.append_inj' h (by simp only [List.length_singleton])
  exact ⟨hdir, Component.normal.inj (List.singleton_inj.mp hname)⟩

/-- What a name and its stem are read as, for the file that has the name. -/
theorem RepoFile.named {fileType : ContentIdType} (file : RepoFile)
    (hmem : file.dir ∈ typeDirs fileType) (id : ID) :
    (ID.fromHex (toStringLossy file.name) = .ok id →
      file.name = hexName id ∧ file.dir = fileDir fileType id) ∧
    (ID.fromHex (toStringLossy (fileStem file.name)) = .ok id →
      fileStem file.name = hexName id ∧ file.dir = fileDir fileType id) := by
  have htype : file.fileType = fileType := fileType_eq_of_mem hmem
  subst htype
  constructor
  · intro hid
    obtain ⟨hname, hfile⟩ := RepoFile.fromHex_name hid
    exact ⟨hname, by rw [RepoFile.dir, hfile]⟩
  · intro hid
    rw [fileStem_name, fromHex_hexName] at hid
    have hfile : file.id = id := Except.ok.inj hid
    exact ⟨by rw [fileStem_name, hfile], by rw [RepoFile.dir, hfile]⟩

/-- The files below `objects` are packs. -/
theorem RepoFile.dir_mem_fanoutDirs (h : objectsDir <+: file.path) : file.dir ∈ fanoutDirs := by
  have hne : file.dir ≠ [] := by
    rcases length_repoDir file.dir_mem with hlen | hlen
    · exact List.ne_nil_of_length_eq_add_one hlen
    · exact List.ne_nil_of_length_eq_add_one hlen
  have hhead : (topDir file.fileType).head? = (topDir .pack).head? := by
    rw [← head?_fileDir file.fileType file.id]
    obtain ⟨rest, hrest⟩ := h
    have hfirst := congrArg List.head? hrest
    rw [file.path_eq, List.head?_append_of_ne_nil _ hne] at hfirst
    exact hfirst.symm
  have hpack : file.fileType = .pack := by
    revert hhead
    cases file.fileType <;> decide
  rw [RepoFile.dir, hpack]
  exact fanoutDir_mem _

/-- A change of files keeps the layout. -/
theorem LaidOut.of_files (h : LaidOut b)
    (hother : ∀ p, (∀ file : RepoFile, p ≠ file.path) → b'.lookup p = b.lookup p)
    (hfile : ∀ file : RepoFile, b'.lookup file.path ≠ some .dir) : LaidOut b' := by
  -- the directories are no files
  have hdir : ∀ p, b.lookup p = some .dir → b'.lookup p = some .dir := by
    intro p hp
    rw [hother p fun file heq => h.lookup_path_ne file (heq ▸ hp), hp]
  have hsame : ∀ p, p.dropLast ∉ repoDirs → b'.lookup p = b.lookup p := fun p hp =>
    hother p fun file heq => hp (heq ▸ file.dropLast_path ▸ file.dir_mem)
  refine
    { wf := ⟨?_, ?_⟩
      dirs := fun dir hmem => hdir dir (h.dirs dir hmem)
      flat := ?_
      normal := ?_
      named := ?_
      objects := ?_ }
  · rw [hother [] fun file heq => file.path_ne_nil heq.symm]
    exact h.wf.root
  · intro p p' entry hlook hne hpre hneq
    by_cases hp' : ∃ file : RepoFile, p' = file.path
    · obtain ⟨file, rfl⟩ := hp'
      refine hdir p (h.lookup_above file ?_ hne)
      rw [file.path_eq] at hpre hneq
      exact (List.prefix_concat_iff.mp hpre).resolve_left hneq
    · rw [hother p' fun file heq => hp' ⟨file, heq⟩] at hlook
      exact hdir p (h.wf.above p p' entry hlook hne hpre hneq)
  · intro p hp
    by_cases hpath : ∃ file : RepoFile, p = file.path
    · obtain ⟨file, rfl⟩ := hpath
      exact hfile file
    · rw [hother p fun file heq => hpath ⟨file, heq⟩]
      exact h.flat p hp
  · intro p hp hlook
    by_cases hpath : ∃ file : RepoFile, p = file.path
    · obtain ⟨file, rfl⟩ := hpath
      rw [file.fileName_path]
      rfl
    · rw [hother p fun file heq => hpath ⟨file, heq⟩] at hlook
      exact h.normal p hp hlook
  · intro fileType dir name id hmem hlook
    by_cases hpath : ∃ file : RepoFile, dir ++ [.normal name] = file.path
    · obtain ⟨file, heq⟩ := hpath
      obtain ⟨hdir', hname⟩ := RepoFile.eq_of_path heq
      rw [hdir'] at hmem
      rw [hdir', hname]
      exact file.named hmem id
    · rw [hother _ fun file heq => hpath ⟨file, heq⟩] at hlook
      exact h.named fileType dir name id hmem hlook
  · intro p entry hlook hpre
    by_cases hpath : ∃ file : RepoFile, p = file.path
    · obtain ⟨file, rfl⟩ := hpath
      refine Or.inr (Or.inr ?_)
      rw [file.dropLast_path]
      exact RepoFile.dir_mem_fanoutDirs hpre
    · rw [hother p fun file heq => hpath ⟨file, heq⟩] at hlook
      exact h.objects p entry hlook hpre

/-! ## One call -/

/-- A file is written or removed. -/
theorem LaidOut.set (h : LaidOut b) (file : RepoFile) (data : Option Bytes)
    (hlook : ∀ p, b'.lookup p = if p = file.path then data.map Entry.file else b.lookup p) :
    LaidOut b' ∧ b'.stored = Function.update b.stored file data := by
  constructor
  · refine h.of_files (fun p hp => ?_) fun file' => ?_
    · rw [hlook, if_neg (hp file)]
    · rw [hlook]
      split
      · cases data <;> simp
      · exact h.lookup_path_ne file'
  · funext file'
    rw [Files.stored, Files.fileAt, hlook]
    by_cases heq : file' = file
    · subst heq
      rw [if_pos rfl, Function.update_self]
      cases data <;> rfl
    · rw [if_neg fun hpath => heq (RepoFile.path_injective hpath), Function.update_of_ne heq]
      rfl

theorem LaidOut.lookup_remove (h : LaidOut b) (file : RepoFile) (p : Path) :
    (b.remove file.path).lookup p = if p = file.path then none else b.lookup p := by
  rw [Files.lookup_remove]
  by_cases heq : p = file.path
  · rw [if_pos heq, if_pos (heq ▸ List.prefix_rfl)]
  · rw [if_neg heq]
    split
    · rename_i hpre
      exact (h.lookup_below hpre heq).symm
    · rfl

/-- A write of a file succeeds, and makes no directory. -/
theorem LaidOut.write (h : LaidOut b) (file : RepoFile) (bytes : Bytes) :
    ∃ b', b.write file.path bytes = some b' ∧
      ∀ p, b'.lookup p = if p = file.path then some (.file bytes) else b.lookup p := by
  have hfree : ∀ p ∈ Files.dirsOf file.dir, (b.fileAt p).isNone := by
    intro p hp
    obtain ⟨hpre, hne⟩ := Files.mem_dirsOf.mp hp
    rw [Files.fileAt_eq_none.mpr (Or.inr (h.lookup_above file hpre hne))]
    rfl
  have hwrite : b.write file.path bytes = some (((Files.dirsOf file.dir).foldl
      (fun b p => b.insert p .dir) b).insert file.path (.file bytes)) := by
    rw [Files.write, if_neg (h.lookup_path_ne file), file.dropLast_path, Files.createDir,
      if_pos (List.all_eq_true.mpr hfree)]
    rfl
  refine ⟨_, hwrite, fun p => ?_⟩
  rw [(Files.lookup_write hwrite).2.2 p, file.dropLast_path]
  split
  · rfl
  · split
    · rename_i habove
      exact (h.lookup_above file habove.1 habove.2).symm
    · rfl

theorem LaidOut.stored_eq_none (h : LaidOut b) (hsrc : b.stored src = none) :
    b.lookup src.path = none :=
  (Files.fileAt_eq_none.mp hsrc).resolve_right (h.lookup_path_ne src)

/-- A rename moves the content; one to the own name does nothing. -/
theorem LaidOut.rename (h : LaidOut b) (src dst : RepoFile) :
    Option.Rel (fun b' stored => LaidOut b' ∧ b'.stored = stored)
      (b.rename src.path dst.path).toOption (b.stored.move src dst) := by
  rw [Stored.move]
  cases hsrc : b.stored src with
  | none =>
    rw [Files.rename, h.stored_eq_none hsrc]
    exact .none
  | some data =>
    have hlook : b.lookup src.path = some (.file data) := Files.fileAt_eq_some.mp hsrc
    by_cases heq : src = dst
    · subst heq
      rw [Files.rename, hlook]
      dsimp only
      rw [if_pos rfl, Option.map_some]
      refine .some ⟨h, ?_⟩
      rw [Function.update_idem, ← hsrc, Function.update_eq_self]
    · have hne : src.path ≠ dst.path := fun hpath => heq (RepoFile.path_injective hpath)
      have hdst : ¬ b.IsDir dst.path := fun hdir => hdir.elim dst.path_ne_nil
        (h.lookup_path_ne dst)
      have habove : b.IsDir dst.path.dropLast := by
        rw [dst.dropLast_path]
        exact Or.inr (h.dirs _ dst.dir_mem)
      rw [Files.rename, hlook]
      dsimp only
      rw [if_neg hne, if_neg hdst, if_pos habove]
      obtain ⟨herase, hstored⟩ := h.set src none fun p =>
        Table.lookup_erase_eq_ite b src.path p
      obtain ⟨hlaid, hmoved⟩ := herase.set dst (some data) fun p =>
        Table.lookup_insert_eq_ite (b.erase src.path) dst.path p (.file data)
      exact .some ⟨hlaid, by rw [hmoved, hstored]⟩

/-- A removal forgets the content. -/
theorem LaidOut.remove (h : LaidOut b) (file : RepoFile) :
    LaidOut (b.remove file.path) ∧
      (b.remove file.path).stored = Function.update b.stored file none :=
  h.set file none fun p => h.lookup_remove file p

theorem filePath_eq (fileType : ContentIdType) (id : ID) (ext : Option Extension) :
    filePath fileType id ext = RepoFile.path ⟨fileType, id, ext⟩ := rfl

/-- The path without an extension. -/
theorem getPath_eq_path (fileType : ContentIdType) (id : ID) :
    getPath fileType id = RepoFile.path ⟨fileType, id, none⟩ := by
  rw [RepoFile.path_eq, getPath_eq, RepoFile.name]
  simp [extensionBytes, RepoFile.dir]

variable {storage : SecureStorage} {fromContent : Bytes → ID}

variable (storage fromContent) in
/-- **One call** does to the files what it does to the map, and keeps the layout. -/
theorem LaidOut.exec (h : LaidOut b) (call : FileCall) :
    Option.Rel (fun b' stored => LaidOut b' ∧ b'.stored = stored)
      (b.exec storage fromContent call) (b.stored.exec storage fromContent call) := by
  cases call with
  | save saveId data nonce fileType ext =>
    rw [Files.exec, Stored.exec, saveFile]
    cases encodeFile storage nonce data fileType with
    | none => exact .none
    | some bytes =>
      obtain ⟨b', hwrite, hlook⟩ :=
        h.write ⟨fileType, saveId.resolve fromContent bytes, ext⟩ bytes
      rw [← filePath_eq] at hwrite
      rw [Option.bind_some]
      dsimp only
      rw [hwrite]
      exact .some (h.set _ (some bytes) hlook)
  | delete fileType id ext =>
    rw [Files.exec, Stored.exec, Stored.drop, deleteFile, Files.lstat, filePath_eq]
    cases hfile : b.stored ⟨fileType, id, ext⟩ with
    | none =>
      rw [h.stored_eq_none hfile]
      exact .none
    | some data =>
      rw [Files.fileAt_eq_some.mp hfile]
      exact .some (h.remove _)
  | setExtension fileType id ext =>
    have hrename := h.rename ⟨fileType, id, none⟩ ⟨fileType, id, ext⟩
    rw [← getPath_eq_path] at hrename
    exact hrename
  | removeSnapshot id =>
    rw [Files.exec, Stored.exec, Stored.drop, removeSnapshot]
    have hpath : snapshotsDir ++ [.normal (hexName id)] =
        RepoFile.path ⟨.snapshot, id, none⟩ := getPath_eq_path .snapshot id
    rw [hpath]
    cases hfile : b.stored ⟨.snapshot, id, none⟩ with
    | none =>
      rw [h.stored_eq_none hfile, Option.isNone_none, if_pos rfl]
      exact .none
    | some data =>
      rw [Files.fileAt_eq_some.mp hfile, Option.isNone_some, if_neg Bool.false_ne_true]
      exact .some (h.remove _)
  | recallDroppedSnapshot id =>
    have hrename := h.rename ⟨.snapshot, id, some .dropped⟩ ⟨.snapshot, id, none⟩
    rw [← getPath_eq_path] at hrename
    exact hrename

variable (storage fromContent) in
/-- **Any calls** do to the files what they do to the map. -/
theorem LaidOut.execAll (h : LaidOut b) (calls : List FileCall) :
    LaidOut (b.execAll storage fromContent calls) ∧
      (b.execAll storage fromContent calls).stored =
        b.stored.execAll storage fromContent calls := by
  induction calls generalizing b with
  | nil => exact ⟨h, rfl⟩
  | cons call calls ih =>
    rw [Files.execAll, Stored.execAll, List.foldl_cons, List.foldl_cons]
    have hcall := h.exec storage fromContent call
    generalize b.exec storage fromContent call = r at hcall
    generalize b.stored.exec storage fromContent call = r' at hcall
    cases hcall with
    | none => exact ih h
    | some hnext =>
      obtain ⟨hlaid, rfl⟩ := hnext
      exact ih hlaid

end LaidOut

/-! ## A repository without files -/

/-- The directories of a repository. -/
def layoutDirs : List Path := objectsDir :: repoDirs

/-- The directories of a repository without files. -/
def emptyRepo : Files := layoutDirs.foldl (fun b p => b.insert p .dir) ∅

theorem lookup_emptyRepo (p : Path) :
    emptyRepo.lookup p = if p ∈ layoutDirs then some .dir else none := by
  rw [emptyRepo, Files.lookup_foldl_insert]
  rfl

theorem eq_objectsDir_of_length {p : Path} (h : p ∈ fanoutDirs) : p.dropLast = objectsDir := by
  obtain ⟨n, -, rfl⟩ := List.mem_map.mp h
  exact List.dropLast_concat

theorem objectsDir_notMem : objectsDir ∉ repoDirs := by
  intro h
  rcases List.mem_append.mp h with hfour | hfanout
  · revert hfour
    decide
  · have hnil := eq_objectsDir_of_length hfanout
    revert hnil
    decide

/-- No directory of a repository is in one that holds files. -/
theorem dropLast_notMem {p : Path} (h : p ∈ layoutDirs) : p.dropLast ∉ repoDirs := by
  have hnil : [] ∉ repoDirs := fun hmem => by
    rcases length_repoDir hmem with hlen | hlen <;> cases hlen
  rcases List.mem_cons.mp h with rfl | hrepo
  · exact hnil
  · rcases List.mem_append.mp hrepo with hfour | hfanout
    · have hall : ∀ d ∈ [snapshotsDir, keysDir, indexDir, locksDir], d.dropLast = [] := by decide
      rw [hall p hfour]
      exact hnil
    · rw [eq_objectsDir_of_length hfanout]
      exact objectsDir_notMem

theorem laidOut_emptyRepo : LaidOut emptyRepo where
  wf :=
    { root := by
        rw [lookup_emptyRepo, if_neg]
        intro h
        rcases List.mem_cons.mp h with heq | hmem
        · cases heq
        · rcases length_repoDir hmem with hlen | hlen <;> cases hlen
      above := by
        intro p p' entry hlook hne hpre hneq
        rw [lookup_emptyRepo] at hlook ⊢
        split at hlook
        · rename_i hmem
          have hlt : p.length < p'.length := by
            refine lt_of_le_of_ne hpre.length_le fun hlen => hneq (hpre.eq_of_length hlen)
          have hpos := List.length_pos_iff.mpr hne
          -- only a fanout directory has a directory above it
          have hfanout : p' ∈ fanoutDirs := by
            rcases List.mem_cons.mp hmem with rfl | hrepo
            · exact absurd hlt (Nat.not_lt.mpr hpos)
            · rcases List.mem_append.mp hrepo with hfour | hfanout
              · have hall : ∀ d ∈ [snapshotsDir, keysDir, indexDir, locksDir], d.length = 1 := by
                  decide
                rw [hall p' hfour] at hlt
                exact absurd hlt (Nat.not_lt.mpr hpos)
              · exact hfanout
          have hp : p = objectsDir := by
            obtain ⟨n, -, rfl⟩ := List.mem_map.mp hfanout
            exact (List.prefix_concat_iff.mp hpre).resolve_left hneq |>.eq_of_length
              (Nat.le_antisymm (Nat.le_of_lt_succ hlt) hpos)
          rw [hp]
          exact if_pos List.mem_cons_self
        · cases hlook }
  dirs := fun dir hmem => (lookup_emptyRepo dir).trans (if_pos (List.mem_cons_of_mem _ hmem))
  flat := fun p hp => by
    rw [lookup_emptyRepo, if_neg fun hmem => dropLast_notMem hmem hp]
    nofun
  normal := fun p hp hlook => by
    rw [lookup_emptyRepo, if_neg fun hmem => dropLast_notMem hmem hp] at hlook
    exact absurd rfl hlook
  named := fun fileType dir name id hmem hlook => by
    refine absurd ?_ hlook
    rw [lookup_emptyRepo, if_neg]
    intro hdir
    refine dropLast_notMem hdir ?_
    rw [List.dropLast_concat]
    exact mem_repoDirs_of_typeDirs hmem
  objects := fun p entry hlook hpre => by
    rw [lookup_emptyRepo] at hlook
    split at hlook
    · rename_i hmem
      rcases List.mem_cons.mp hmem with rfl | hrepo
      · exact Or.inl rfl
      · rcases List.mem_append.mp hrepo with hfour | hfanout
        · have hall : ∀ d ∈ [snapshotsDir, keysDir, indexDir, locksDir], ¬ objectsDir <+: d := by
            decide
          exact absurd hpre (hall p hfour)
        · exact Or.inr (Or.inl hfanout)
    · cases hlook

/-! ## Saving and loading -/

section Load

variable {storage : SecureStorage} {fromContent : Bytes → ID} {stored stored' : Stored}
  {file : RepoFile}

/-- The files that a call writes, removes or renames. -/
def FileCall.touched (storage : SecureStorage) (fromContent : Bytes → ID) :
    FileCall → List RepoFile
  | .save saveId data nonce fileType ext =>
    match encodeFile storage nonce data fileType with
    | none => []
    | some bytes => [⟨fileType, saveId.resolve fromContent bytes, ext⟩]
  | .delete fileType id ext => [⟨fileType, id, ext⟩]
  | .setExtension fileType id ext => [⟨fileType, id, none⟩, ⟨fileType, id, ext⟩]
  | .removeSnapshot id => [⟨.snapshot, id, none⟩]
  | .recallDroppedSnapshot id => [⟨.snapshot, id, some .dropped⟩, ⟨.snapshot, id, none⟩]

theorem Stored.move_of_ne {src dst : RepoFile} (h : stored.move src dst = some stored')
    (hsrc : file ≠ src) (hdst : file ≠ dst) : stored' file = stored file := by
  obtain ⟨data, -, rfl⟩ := Option.map_eq_some_iff.mp h
  rw [Function.update_of_ne hdst, Function.update_of_ne hsrc]

theorem Stored.drop_of_ne {src : RepoFile} (h : stored.drop src = some stored')
    (hsrc : file ≠ src) : stored' file = stored file := by
  obtain ⟨data, -, rfl⟩ := Option.map_eq_some_iff.mp h
  rw [Function.update_of_ne hsrc]

/-- A call leaves every other file as it is. -/
theorem Stored.exec_of_notMem {call : FileCall} (h : stored.exec storage fromContent call = some stored')
    (hfile : file ∉ call.touched storage fromContent) : stored' file = stored file := by
  cases call with
  | save saveId data nonce fileType ext =>
    obtain ⟨bytes, hbytes, rfl⟩ := Option.map_eq_some_iff.mp h
    rw [FileCall.touched, hbytes] at hfile
    exact Function.update_of_ne (List.ne_of_not_mem_cons hfile) _ _
  | delete | removeSnapshot => exact drop_of_ne h (List.ne_of_not_mem_cons hfile)
  | setExtension | recallDroppedSnapshot =>
    exact move_of_ne h (List.ne_of_not_mem_cons hfile)
      (List.ne_of_not_mem_cons (List.not_mem_of_not_mem_cons hfile))

theorem Stored.execAll_of_notMem {calls : List FileCall}
    (h : ∀ call ∈ calls, file ∉ call.touched storage fromContent) :
    stored.execAll storage fromContent calls file = stored file := by
  induction calls generalizing stored with
  | nil => rfl
  | cons call calls ih =>
    rw [Stored.execAll, List.foldl_cons]
    refine (ih fun c hc => h c (List.mem_cons_of_mem _ hc)).trans ?_
    cases hcall : stored.exec storage fromContent call with
    | none => rfl
    | some stored' => exact exec_of_notMem hcall (h call List.mem_cons_self)

theorem readAt_zero (data : Bytes) : readAt data 0 0 = data := by
  simp [readAt, resolveReadOffset, readRange]

/-- What is written is read back. -/
theorem decodeFile_encodeFile {nonce : Nonce} {data bytes : Bytes} {fileType : ContentIdType}
    (h : encodeFile storage nonce data fileType = some bytes) :
    decodeFile storage bytes fileType = some data := by
  cases fileType with
  | pack => exact h.symm
  | key => exact storage.decompress_compress h
  | snapshot | index | lock =>
    exact (SecureStorage.decodeOwned_eq_decode bytes).trans (SecureStorage.decode_encode h)

/-- **A saved file is loaded as it was saved.** In a repository with its layout a file can be saved
when its content can be encoded; after any calls for other files, of whatever type, extension and
success, loading it gives the content. -/
theorem loadFile_saveFile (storage : SecureStorage) (fromContent : Bytes → ID) (b : Files)
    (saveId : SaveID) (data : Bytes) (nonce : Nonce) (fileType : ContentIdType)
    (ext : Option Extension) (h : LaidOut b) :
    ((saveFile storage fromContent b saveId data nonce fileType ext).isSome =
      (encodeFile storage nonce data fileType).isSome) ∧
    ∀ b' id sizes, saveFile storage fromContent b saveId data nonce fileType ext =
        some (b', id, sizes) →
      ∀ calls : List FileCall,
        (∀ call ∈ calls, ⟨fileType, id, ext⟩ ∉ call.touched storage fromContent) →
        loadFile storage (b'.execAll storage fromContent calls) fileType id ext = some data := by
  have hsave : ∀ bytes, encodeFile storage nonce data fileType = some bytes → ∃ b',
      saveFile storage fromContent b saveId data nonce fileType ext =
          some (b', saveId.resolve fromContent bytes, ⟨data.length, bytes.length⟩) ∧ LaidOut b' ∧
        b'.stored ⟨fileType, saveId.resolve fromContent bytes, ext⟩ = some bytes := by
    intro bytes hbytes
    obtain ⟨b', hwrite, hlook⟩ := h.write ⟨fileType, saveId.resolve fromContent bytes, ext⟩ bytes
    obtain ⟨hlaid, hstored⟩ := h.set _ (some bytes) hlook
    rw [← filePath_eq] at hwrite
    refine ⟨b', ?_, hlaid, ?_⟩
    · rw [saveFile, hbytes, Option.bind_some]
      dsimp only
      rw [hwrite]
      rfl
    · rw [hstored, Function.update_self]
  cases hbytes : encodeFile storage nonce data fileType with
  | none =>
    have hnone : saveFile storage fromContent b saveId data nonce fileType ext = none := by
      rw [saveFile, hbytes]
      rfl
    rw [hnone]
    exact ⟨rfl, nofun⟩
  | some bytes =>
    obtain ⟨b', hrun, hlaid, hstored⟩ := hsave bytes hbytes
    rw [hrun]
    refine ⟨rfl, ?_⟩
    rintro _ _ _ ⟨⟩ calls hcalls
    have hfile : (b'.execAll storage fromContent calls).stored
        ⟨fileType, saveId.resolve fromContent bytes, ext⟩ = some bytes := by
      rw [(hlaid.execAll storage fromContent calls).2, Stored.execAll_of_notMem hcalls, hstored]
    have hat : (b'.execAll storage fromContent calls).fileAt
        (filePath fileType (saveId.resolve fromContent bytes) ext) = some bytes := hfile
    rw [loadFile, hat, Option.bind_some, readAt_zero]
    exact decodeFile_encodeFile hbytes

/-- A keyfile is saved, then a snapshot is, which is deleted again. -/
theorem loadFile_saveFile_emptyRepo :
    ∃ b' id sizes, saveFile headerStorage (fun _ => 0) emptyRepo .calculateID [1] sampleNonce .key
        none = some (b', id, sizes) ∧
      loadFile headerStorage (b'.execAll headerStorage (fun _ => 0)
        [.save .calculateID [2] sampleNonce .snapshot none, .delete .snapshot 0 none]) .key id none =
          some [1] := by
  obtain ⟨hsome, hload⟩ := loadFile_saveFile headerStorage (fun _ => 0) emptyRepo .calculateID [1]
    sampleNonce .key none laidOut_emptyRepo
  obtain ⟨⟨b', id, sizes⟩, hsave⟩ := Option.isSome_iff_exists.mp (hsome.trans rfl)
  refine ⟨b', id, sizes, hsave, hload b' id sizes hsave _ fun call hcall => ?_⟩
  rcases List.mem_pair.mp hcall with rfl | rfl
  · rw [FileCall.touched]
    split <;> simp
  · simp [FileCall.touched]

end Load

end Mapache
