import Mapache.Backend.Cache
import Mapache.Backend.Listing
import Mapache.Commands.Sync
import Mapache.Fs.Intermediate
import Mapache.Utils.Hex
import Mathlib.Data.List.TakeWhile

/-!
# The layout of a repository

The paths of the files of a repository (`get_path` of `repo.rs` and the extension that the functions
on files put behind it), and how the listings read an ID and an extension back from a path.

A file is told by its type, its ID and its extension (`RepoFile`). Different files have different
paths (`RepoFile.path_injective`), and the stem and the extension of a path are those of its file
(`fileStem_name`, `RepoFile.pathExtension_path`).
-/

set_option autoImplicit false

namespace Mapache

open Lib

/-! ## Paths -/

/-- `OBJECTS_DIR`, which is `objects`. -/
def objectsDir : Path := [.normal [111, 98, 106, 101, 99, 116, 115]]

/-- `SNAPSHOTS_DIR`, which is `snapshots`. -/
def snapshotsDir : Path := [.normal [115, 110, 97, 112, 115, 104, 111, 116, 115]]

/-- `INDEX_DIR`, which is `index`. -/
def indexDir : Path := [.normal [105, 110, 100, 101, 120]]

/-- `KEYS_DIR`, which is `keys`. -/
def keysDir : Path := [.normal [107, 101, 121, 115]]

/-- `REPO_DROPPED_EXTENSION`, which is `dropped`. -/
def repoDroppedExtension : Bytes := [100, 114, 111, 112, 112, 101, 100]

/-- `OBJECTS_DIR_FANOUT`. -/
def objectsDirFanout : Nat := 2

/-- `Path::with_extension`. -/
def withExtension (path : Path) (ext : Bytes) : Path :=
  match fileName path with
  | none => path
  | some name =>
    path.dropLast ++ [.normal (fileStem name ++ if ext = [] then [] else 46 :: ext)]

/-- `Path::extension`. -/
def pathExtension (path : Path) : Option Bytes :=
  (fileName path).bind fun name =>
    if fileStem name = name then none else some (name.drop ((fileStem name).length + 1))

/-- The name of a file with an ID. -/
def hexName (id : ID) : Bytes := strBytes id.toHex

/-- The directory of an object. -/
def fanoutDir (id : ID) : Path := objectsDir ++ [.normal ((hexName id).take objectsDirFanout)]

/-- `get_object_path`. -/
def getObjectPath (id : ID) : Path := fanoutDir id ++ [.normal (hexName id)]

/-- `get_path`. -/
def getPath : ContentIdType → ID → Path
  | .pack, id => getObjectPath id
  | .snapshot, id => snapshotsDir ++ [.normal (hexName id)]
  | .index, id => indexDir ++ [.normal (hexName id)]
  | .key, id => keysDir ++ [.normal (hexName id)]
  | .lock, id => locksDir ++ [.normal (hexName id)]

/-- `dir_for_type`. -/
def dirForType : ContentIdType → Option Path
  | .snapshot => some snapshotsDir
  | .key => some keysDir
  | .index => some indexDir
  | .lock => some locksDir
  | .pack => none

/-- The directory that holds the files of a type with an ID. -/
def fileDir (fileType : ContentIdType) (id : ID) : Path := (dirForType fileType).getD (fanoutDir id)

/-- The name of the fanout directory `n`, which is `n` with two digits. -/
def fanoutName (n : Nat) : Bytes :=
  strBytes (String.ofList [(n / 16 % 16).digitChar, (n % 16).digitChar])

/-- The fanout directories. -/
def fanoutDirs : List Path :=
  (List.range (2 ^ (4 * objectsDirFanout))).map fun n => objectsDir ++ [.normal (fanoutName n)]

/-- The directories that hold files. -/
def repoDirs : List Path := [snapshotsDir, keysDir, indexDir, locksDir] ++ fanoutDirs

/-! ## Files -/

/-- An extension of a file: not empty, in one piece, and not that of a temporary file, which belongs
to the backend. -/
structure Extension where
  bytes : Bytes
  ne_nil : bytes ≠ []
  no_dot : 46 ∉ bytes
  no_separator : 47 ∉ bytes
  ne_tmp : bytes ≠ repoTmpExtension
  deriving DecidableEq

/-- The extension of a dropped file. -/
def Extension.dropped : Extension where
  bytes := repoDroppedExtension
  ne_nil := by decide
  no_dot := by decide
  no_separator := by decide
  ne_tmp := by decide

/-- `with_extension.unwrap_or_default()`. -/
def extensionBytes (ext : Option Extension) : Bytes := (ext.map Extension.bytes).getD []

/-- A file of a repository. -/
structure RepoFile where
  fileType : ContentIdType
  id : ID
  ext : Option Extension
  deriving DecidableEq

namespace RepoFile

/-- The path that the functions on files compute. -/
def path (file : RepoFile) : Path :=
  withExtension (getPath file.fileType file.id) (extensionBytes file.ext)

/-- The name of a file. -/
def name (file : RepoFile) : Bytes :=
  hexName file.id ++ if extensionBytes file.ext = [] then [] else 46 :: extensionBytes file.ext

/-- The directory of a file. -/
def dir (file : RepoFile) : Path := fileDir file.fileType file.id

end RepoFile

/-! ## Names -/

section Names

variable {id id' : ID} {name : Bytes}

theorem toStringLossy_strBytes (s : String) : toStringLossy (strBytes s) = s := by
  rw [toStringLossy, strBytes, go_utf8 _ le_rfl, String.ofList_toList]

theorem strBytes_injective : Function.Injective strBytes := fun s t h => by
  rw [← toStringLossy_strBytes s, h, toStringLossy_strBytes]

/-- A replacement takes at least a byte. -/
theorem one_le_utf8Next (bs : Bytes) : 1 ≤ (utf8Next bs).2 := by
  cases bs with
  | nil => exact le_rfl
  | cons b bs =>
    rw [utf8Next]
    split
    · exact le_rfl
    · split
      · exact le_rfl
      · rename_i len lo hi hlead
        dsimp only
        split
        · dsimp only
          unfold utf8Lead at hlead
          split at hlead <;> grind
        · exact Nat.le_add_right 1 _

/-- More fuel than bytes changes nothing. -/
theorem toStringLossy_go_eq {n m : Nat} {bs : Bytes} (hn : bs.length ≤ n) (hm : bs.length ≤ m) :
    toStringLossy.go n bs = toStringLossy.go m bs := by
  induction hlen : bs.length using Nat.strong_induction_on generalizing bs n m with
  | _ k ih =>
    subst hlen
    match bs, n, m with
    | [], n, m => cases n <;> cases m <;> rfl
    | b :: bs, n + 1, m + 1 =>
      have hpos := one_le_utf8Next (b :: bs)
      have hdrop : ((b :: bs).drop (utf8Next (b :: bs)).2).length < (b :: bs).length := by
        rw [List.length_drop, List.length_cons]
        omega
      have hn : (b :: bs).length ≤ n + 1 := hn
      have hm : (b :: bs).length ≤ m + 1 := hm
      rw [toStringLossy.go, toStringLossy.go]
      exact congrArg _ (ih _ hdrop (by omega) (by omega) rfl)

/-- A string in front of bytes is read as itself. -/
theorem toList_toStringLossy_append (s : String) (bs : Bytes) :
    (toStringLossy (strBytes s ++ bs)).toList = s.toList ++ (toStringLossy bs).toList := by
  have hgo : ∀ (cs : List Char) (n : Nat), (cs.flatMap String.utf8EncodeChar ++ bs).length ≤ n →
      toStringLossy.go n (cs.flatMap String.utf8EncodeChar ++ bs) =
        cs ++ toStringLossy.go bs.length bs := by
    intro cs
    induction cs with
    | nil => exact fun n hn => toStringLossy_go_eq hn le_rfl
    | cons c cs ih =>
      intro n hn
      have hnext := utf8Next_encode c (cs.flatMap String.utf8EncodeChar ++ bs)
      rw [List.flatMap_cons, List.append_assoc] at hn ⊢
      cases hc : String.utf8EncodeChar c with
      | nil => exact absurd hc String.utf8EncodeChar_ne_nil
      | cons b rest =>
        cases n with
        | zero => simp [hc] at hn
        | succ n =>
          rw [hc] at hnext hn
          rw [List.cons_append] at hnext ⊢
          rw [toStringLossy.go, hnext]
          simp only [List.length_cons, List.length_append] at hn
          have hdrop : (b :: (rest ++ (cs.flatMap String.utf8EncodeChar ++ bs))).drop
              (b :: rest).length = cs.flatMap String.utf8EncodeChar ++ bs := by
            simp
          dsimp only
          rw [hdrop, ih n (by rw [List.length_append]; omega)]
          rfl
  rw [toStringLossy, toStringLossy, String.toList_ofList, String.toList_ofList]
  exact hgo s.toList _ le_rfl

/-- An ID is read from its name. -/
theorem fromHex_hexName (id : ID) : ID.fromHex (toStringLossy (hexName id)) = .ok id := by
  rw [hexName, toStringLossy_strBytes, ID.fromHex_eq_ok_iff]
  have hlower : ∀ c ∈ id.toHex.toList, c.toLower = c := by
    intro c hc
    rw [ID.toHex, toList_bytesToHex] at hc
    obtain ⟨b, -, hdigit⟩ := List.mem_flatMap.mp hc
    have hb := b.toNat_lt
    have hdigits : ∀ n, n < 16 → n.digitChar.toLower = n.digitChar := by decide
    rcases List.mem_pair.mp hdigit with rfl | rfl
    · exact hdigits _ (by omega)
    · exact hdigits _ (by omega)
  exact (List.map_congr_left hlower).trans (List.map_id _)

theorem hexName_injective : Function.Injective hexName := fun id id' h => by
  have hid := fromHex_hexName id
  rw [h, fromHex_hexName] at hid
  exact (Except.ok.inj hid).symm

/-- The name has one byte for each digit. -/
theorem hexName_eq (id : ID) :
    hexName id = (hexDigits id.asSlice).map fun c => UInt8.ofNat c.toNat := by
  have hone : ∀ n, n < 16 →
      String.utf8EncodeChar n.digitChar = [UInt8.ofNat n.digitChar.toNat] := by decide
  rw [hexName, strBytes, ID.toHex, toList_bytesToHex, hexDigits]
  induction id.asSlice with
  | nil => rfl
  | cons b bytes ih =>
    have hb := b.toNat_lt
    rw [List.flatMap_cons, List.flatMap_append, ih, List.map_append]
    simp only [List.flatMap_cons, List.flatMap_nil, List.append_nil, List.map_cons, List.map_nil]
    rw [hone _ (by omega), hone _ (by omega)]
    rfl

theorem length_hexName (id : ID) : (hexName id).length = 64 := by
  rw [hexName_eq, List.length_map, length_hexDigits, ID.length_asSlice]

theorem hexName_ne_nil (id : ID) : hexName id ≠ [] := fun h => by
  have hlen := length_hexName id
  rw [h] at hlen
  cases hlen

theorem dot_notMem_hexName (id : ID) : 46 ∉ hexName id := by
  have hdigits : ∀ n, n < 16 → UInt8.ofNat n.digitChar.toNat ≠ 46 := by decide
  rw [hexName_eq]
  intro hmem
  obtain ⟨c, hc, hdot⟩ := List.mem_map.mp hmem
  obtain ⟨b, -, hdigit⟩ := List.mem_flatMap.mp hc
  have hb := b.toNat_lt
  rcases List.mem_pair.mp hdigit with rfl | rfl
  · exact hdigits _ (by omega) hdot
  · exact hdigits _ (by omega) hdot

/-- A name with an extension is not read as an ID. -/
theorem fromHex_append_dot (s : String) (ext : Bytes) (id : ID) :
    ID.fromHex (toStringLossy (strBytes s ++ 46 :: ext)) ≠ .ok id := by
  intro h
  rw [ID.fromHex_eq_ok_iff, toList_toStringLossy_append, ID.toHex, toList_bytesToHex] at h
  have hdot : (toStringLossy (46 :: ext)).toList = '.' :: (toStringLossy ext).toList :=
    toList_toStringLossy_append "." ext
  have hmem : '.' ∈ hexDigits id.asSlice := by
    rw [← h, hdot]
    simp
  obtain ⟨b, -, hdigit⟩ := List.mem_flatMap.mp hmem
  have hb := b.toNat_lt
  have hdigits : ∀ n, n < 16 → '.' ≠ n.digitChar := by decide
  rcases List.mem_pair.mp hdigit with heq | heq
  · exact hdigits _ (by omega) heq
  · exact hdigits _ (by omega) heq

/-- The stem of a name without a dot. -/
theorem fileStem_of_notMem (h : 46 ∉ name) : fileStem name = name := by
  have hall : ∀ b ∈ name.reverse, decide (b ≠ 46) = true := fun b hb =>
    decide_eq_true fun heq => h (heq ▸ List.mem_reverse.mp hb)
  have hdrop : name.reverse.dropWhile (fun b => decide (b ≠ 46)) = [] :=
    List.dropWhile_eq_nil_iff.mpr hall
  rw [fileStem, hdrop]
  rfl

/-- The stem of a name ends at its last dot. -/
theorem fileStem_append {ext : Bytes} (hname : name ≠ []) (hext : 46 ∉ ext) :
    fileStem (name ++ 46 :: ext) = name := by
  have hall : ∀ b ∈ ext.reverse, decide (b ≠ 46) = true := fun b hb =>
    decide_eq_true fun heq => hext (heq ▸ List.mem_reverse.mp hb)
  have hdrop : (name ++ 46 :: ext).reverse.dropWhile (fun b => decide (b ≠ 46)) =
      46 :: name.reverse := by
    rw [List.reverse_append, List.reverse_cons, List.append_assoc,
      List.dropWhile_append_of_pos hall]
    rfl
  rw [fileStem, hdrop]
  simp [hname]

end Names

/-! ## Extensions -/

section Extensions

variable {ext : Option Extension} {file file' : RepoFile}

theorem dot_notMem_extensionBytes (ext : Option Extension) : 46 ∉ extensionBytes ext := by
  cases ext with
  | none => exact List.not_mem_nil
  | some e => exact e.no_dot

theorem extensionBytes_eq_nil : extensionBytes ext = [] ↔ ext = none := by
  cases ext with
  | none => exact ⟨fun _ => rfl, fun _ => rfl⟩
  | some e => exact ⟨fun h => absurd h e.ne_nil, nofun⟩

theorem extensionBytes_injective : Function.Injective extensionBytes := by
  intro ext ext' h
  cases ext with
  | none => exact (extensionBytes_eq_nil.mp h.symm).symm
  | some e =>
    cases ext' with
    | none => exact absurd h e.ne_nil
    | some e' =>
      cases e
      cases e'
      cases h
      rfl

theorem fileStem_name (file : RepoFile) : fileStem file.name = hexName file.id := by
  rw [RepoFile.name]
  split
  · rw [List.append_nil]
    exact fileStem_of_notMem (dot_notMem_hexName _)
  · exact fileStem_append (hexName_ne_nil _) (dot_notMem_extensionBytes _)

theorem getPath_eq (fileType : ContentIdType) (id : ID) :
    getPath fileType id = fileDir fileType id ++ [.normal (hexName id)] := by
  cases fileType <;> rfl

/-- The path of a file is its directory and its name. -/
theorem RepoFile.path_eq (file : RepoFile) : file.path = file.dir ++ [.normal file.name] := by
  rw [RepoFile.path, getPath_eq, withExtension, fileName_append]
  dsimp only
  rw [List.dropLast_concat, fileStem_of_notMem (dot_notMem_hexName _)]
  rfl

theorem RepoFile.path_ne_nil (file : RepoFile) : file.path ≠ [] := by
  rw [file.path_eq]
  exact List.append_ne_nil_of_right_ne_nil _ (List.cons_ne_nil _ _)

theorem RepoFile.dropLast_path (file : RepoFile) : file.path.dropLast = file.dir := by
  rw [file.path_eq, List.dropLast_concat]

theorem RepoFile.fileName_path (file : RepoFile) : fileName file.path = some file.name := by
  rw [file.path_eq, fileName_append]

/-- The extension of the path is that of the file. -/
theorem RepoFile.pathExtension_path (file : RepoFile) :
    pathExtension file.path = file.ext.map Extension.bytes := by
  rw [pathExtension, file.fileName_path, Option.bind_some, fileStem_name, RepoFile.name]
  cases file.ext with
  | none => simp [extensionBytes]
  | some e =>
    have hne : extensionBytes (some e) ≠ [] := e.ne_nil
    rw [if_neg hne, if_neg (by simp)]
    simp [extensionBytes]

/-- The directory of a type below the root. -/
def topDir (fileType : ContentIdType) : Path := (dirForType fileType).getD objectsDir

theorem head?_fileDir (t : ContentIdType) (id : ID) : (fileDir t id).head? = (topDir t).head? := by
  cases t <;> rfl

/-- The directories of the types are different. -/
theorem fileType_eq_of_fileDir {t t' : ContentIdType} {id id' : ID}
    (h : fileDir t id = fileDir t' id') : t = t' := by
  have hhead : (topDir t).head? = (topDir t').head? := by
    rw [← head?_fileDir t id, h, head?_fileDir]
  revert hhead
  cases t <;> cases t' <;> decide

/-- **Different files have different paths.** -/
theorem RepoFile.path_injective : Function.Injective RepoFile.path := by
  intro file file' h
  have hdir : file.dir = file'.dir := by
    rw [← file.dropLast_path, h, file'.dropLast_path]
  have hname : file.name = file'.name := by
    have hname := file.fileName_path
    rw [h, file'.fileName_path] at hname
    exact (Option.some.inj hname).symm
  have hid : file.id = file'.id := hexName_injective (by
    rw [← fileStem_name file, hname, fileStem_name file'])
  have hext : file.ext = file'.ext := by
    refine extensionBytes_injective ?_
    have hpath := file.pathExtension_path
    rw [h, file'.pathExtension_path] at hpath
    exact congrArg (Option.getD · []) hpath.symm
  have htype : file.fileType = file'.fileType := fileType_eq_of_fileDir hdir
  cases file
  cases file'
  simp_all

end Extensions

/-! ## Directories -/

section Dirs

theorem fanoutDir_mem (id : ID) : fanoutDir id ∈ fanoutDirs := by
  have hslice := ID.length_asSlice id
  obtain ⟨b, bytes, hbytes⟩ : ∃ b bytes, id.asSlice = b :: bytes :=
    List.exists_cons_of_length_eq_add_one hslice
  have hb := b.toNat_lt
  refine List.mem_map.mpr ⟨b.toNat, List.mem_range.mpr (by simpa [objectsDirFanout] using hb), ?_⟩
  have hone : ∀ n, n < 16 →
      String.utf8EncodeChar n.digitChar = [UInt8.ofNat n.digitChar.toNat] := by decide
  rw [fanoutDir, hexName_eq, hbytes, fanoutName, strBytes, String.toList_ofList,
    Nat.mod_eq_of_lt (show b.toNat / 16 < 16 by omega)]
  simp only [List.flatMap_cons, List.flatMap_nil, List.append_nil, hexDigits, List.map_append,
    List.map_cons, List.map_nil, objectsDirFanout]
  rw [hone _ (by omega), hone _ (by omega)]
  rfl

theorem RepoFile.dir_mem (file : RepoFile) : file.dir ∈ repoDirs := by
  unfold RepoFile.dir fileDir
  cases file.fileType with
  | pack => exact List.mem_append_right _ (fanoutDir_mem _)
  | snapshot | index | key | lock => simp [repoDirs, dirForType]

/-- A directory of files is one of the four or a fanout directory. -/
theorem length_repoDir {dir : Path} (h : dir ∈ repoDirs) : dir.length = 1 ∨ dir.length = 2 := by
  rcases List.mem_append.mp h with hfour | hfanout
  · have hall : ∀ d ∈ [snapshotsDir, keysDir, indexDir, locksDir], d.length = 1 := by decide
    exact Or.inl (hall dir hfour)
  · obtain ⟨n, -, rfl⟩ := List.mem_map.mp hfanout
    exact Or.inr rfl

end Dirs

end Mapache
