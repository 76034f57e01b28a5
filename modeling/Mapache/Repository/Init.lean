import Mapache.Bundle.Reader
import Mapache.Repository.FileListing
import Mapache.Utils.Base64
import Mathlib.Logic.Equiv.List

/-!
# A new repository

`Repository::init` and `Repository::try_open_unlocked` of `repo.rs`, with the parts of `keys.rs` that
they use: the keyfile as it is written, with its salt and its key in base64, the stream of the keyfiles
of a repository, and the search for one that opens with a password.

`init_then_open` says what a new repository is: it has its layout and no file but the keyfile, its
creator opens it at any compression level, everybody without that user name or with a password that
does not open the keyfile is refused, and it is not initialized again.
-/

set_option autoImplicit false

namespace Mapache

open Lib

/-! ## Keyfiles as they are written -/

/-- `KeyFile`, with the bytes of its texts. -/
structure StoredKeyFile where
  created : Int
  username : String
  params : Argon2Params
  salt : Bytes
  encryptedKey : Bytes
  deriving DecidableEq

/-- The libraries that a repository is written with: those of a bundle, and `serde_json`, which reads
what it has written. -/
structure RepoLibs where
  crypto : BundleCrypto
  keyfileJson : StoredKeyFile → Bytes
  parseKeyfile : Bytes → Option StoredKeyFile
  manifestJson : Manifest → Bytes
  parseManifest : Bytes → Option Manifest
  parse_keyfileJson : ∀ keyfile, parseKeyfile (keyfileJson keyfile) = some keyfile
  parse_manifestJson : ∀ manifest, parseManifest (manifestJson manifest) = some manifest

/-- `SecureStorage::with_key`, which takes 32 bytes. -/
def withKey (crypto : BundleCrypto) (level : Int) (key : Bytes) : Option SecureStorage :=
  if h : key.length = 32 then some (crypto.storage level ⟨key, h⟩) else none

/-- `DEFAULT_COMPRESSION` and `Compression::Fast`. -/
def fastLevel : Int := 3

section Keys

variable (crypto : BundleCrypto)

/-- `KeyManager::generate_key_file`, with the salt, the nonce and the time it takes. -/
def newKeyFile (salt : FixedBytes 32) (nonce : Nonce) (created : Int) (auth : Auth)
    (masterKey : Bytes) : Option StoredKeyFile :=
  let params := crypto.defaultParams
  (crypto.deriveKey auth.password salt.val params).bind fun key =>
    ((crypto.storage fastLevel key).sealPayload nonce masterKey).map fun encryptedKey =>
      { created
        username := auth.username
        params
        salt := Base64.encode salt.val
        encryptedKey := Base64.encode encryptedKey }

/-- `KeyManager::decode_master_key`. -/
def StoredKeyFile.masterKey (password : String) (keyfile : StoredKeyFile) : Option Bytes := do
  let salt ← (Base64.decode keyfile.salt).toOption
  let encryptedKey ← (Base64.decode keyfile.encryptedKey).toOption
  let params ← crypto.buildParams keyfile.params
  let key ← crypto.deriveKey password salt params
  (crypto.storage fastLevel key).decrypt encryptedKey

end Keys

section Open

variable (libs : RepoLibs)

/-- What the stream of the keyfiles gives for a path: nothing where the text is no keyfile, and an
error where it does not come that far. -/
def loadKeyEntry (b : Files) (p : Path) : Option (Option (ID × StoredKeyFile)) :=
  match b.fileAt p, fileName p with
  | some data, some name =>
    match ID.fromHex (toStringLossy name) with
    | .error _ => some none
    | .ok id =>
      match libs.crypto.decompress (readAt data 0 0) with
      | none => some none
      | some text => (libs.parseKeyfile text).map fun keyfile => some (id, keyfile)
  | _, _ => some none

/-- `KeyFileStream`: the paths are taken from the end. -/
def keyFileStream (b : Files) : Except StorageError (List (Option (ID × StoredKeyFile))) :=
  (listPaths b keysDir).map fun paths => paths.reverse.filterMap (loadKeyEntry libs b)

/-- The errors of opening a repository. -/
inductive OpenError where
  | auth (message : String)
  | repo (message : String)
  | crypto (message : String)
  /-- One that is passed on. -/
  | failed
  deriving DecidableEq

/-- `NoMatchingKeyfile`, as `retrieve_master_key` returns it. -/
def wrongPassword : OpenError := .auth "Incorrect username or password"

/-- `retrieve_master_key`; `keyfile` is the content of the file at the path of a keyfile, if there is
such a path. -/
def retrieveKey (b : Files) (auth : Auth) (keyfile : Option Bytes) :
    Except OpenError (Option ID × Bytes) :=
  match keyfile with
  | some data =>
    match libs.crypto.decompress data with
    | none => .error .failed
    | some text =>
      match libs.parseKeyfile text with
      | none => .error .failed
      | some keyfile =>
        if keyfile.username ≠ auth.username then .error wrongPassword
        else
          match keyfile.masterKey libs.crypto auth.password with
          | none => .error .failed
          | some key => .ok (none, key)
  | none =>
    match keyFileStream libs b with
    | .error _ => .error (.repo
        "no keyfiles found. This repository may not be properly initialized.")
    | .ok items =>
      let keyfiles := items.filterMap id
      let opened := keyfiles.findSome? fun entry =>
        if entry.2.username = auth.username then
          (entry.2.masterKey libs.crypto auth.password).map fun key => (some entry.1, key)
        else none
      match opened with
      | some found => .ok found
      | none =>
        if keyfiles = [] then .error (.repo
          "no keyfiles found. This repository may not be properly initialized.")
        else .error wrongPassword

/-- `THIS_REPOSITORY_VERSION`. -/
def thisRepositoryVersion : UInt32 := 1

/-- `try_open_unlocked`, with the compression level of the configuration: the manifest and the
storage. -/
def tryOpenUnlocked (b : Files) (auth : Auth) (keyfile : Option Bytes) (level : Int) :
    Except OpenError (Manifest × SecureStorage) :=
  match retrieveKey libs b auth keyfile with
  | .error e => .error e
  | .ok (_, masterKey) =>
    match withKey libs.crypto level masterKey with
    | none => .error .failed
    | some storage =>
      match b.fileAt manifestPath with
      | none => .error (.repo "this is not a mapache repository")
      | some data =>
        match storage.decode (readAt data 0 0) with
        | none => .error (.crypto "could not decode the manifest file")
        | some text =>
          match libs.parseManifest text with
          | none => .error .failed
          | some manifest =>
            if thisRepositoryVersion < manifest.version then .error (.repo
              ("invalid repository version '" ++ toString manifest.version ++ "'"))
            else .ok (manifest, storage)

end Open

/-! ## `init` -/

/-- What `init` draws: the master key and the salt, the nonces, the ID and the times. -/
structure InitDraws where
  masterKey : FixedBytes 32
  salt : FixedBytes 32
  keyNonce : Nonce
  keyCreated : Int
  manifestId : ID
  seconds : Int64
  nanos : UInt32
  manifestNonce : Nonce

/-- The errors of `init`: the one of its check, and those that are passed on. -/
inductive InitError where
  | repoAlreadyExists
  | failed
  deriving DecidableEq

/-- The directories behind the manifest, in the order in which they are made. -/
def initDirs : List Path := objectsDir :: (fanoutDirs ++ [snapshotsDir, indexDir, locksDir])

/-- What `init` writes. -/
structure InitFiles where
  files : Files
  /-- The content of the file at the path of the keyfile, if there is such a path. -/
  keyfile : Option Bytes
  manifest : Manifest

/-- The path of a keyfile in the repository. -/
def keyPath (id : ID) : Path := keysDir ++ [.normal (hexName id)]

/-- The keyfile of `init`: `external` says that it has a path of its own, outside of the backend. -/
def writeKeyfile (fromContent : Bytes → ID) (b : Files) (external : Bool) (text : Bytes) :
    Option Files :=
  if external then some b else b.write (keyPath (fromContent text)) text

/-- `init` behind its check. -/
def createRepo (libs : RepoLibs) (fromContent : Bytes → ID) (b : Files) (auth : Auth)
    (external : Bool) (draws : InitDraws) : Option InitFiles := do
  let b ← b.createDir keysDir
  let keyfile ← newKeyFile libs.crypto draws.salt draws.keyNonce draws.keyCreated auth
    draws.masterKey.val
  let storage := libs.crypto.storage fastLevel draws.masterKey
  let text ← storage.compress (libs.keyfileJson keyfile)
  let b ← writeKeyfile fromContent b external text
  let manifest : Manifest :=
    { version := thisRepositoryVersion
      id := draws.manifestId
      seconds := draws.seconds
      nanos := draws.nanos }
  let data ← storage.encode draws.manifestNonce (libs.manifestJson manifest)
  let b ← b.write manifestPath data
  let b ← initDirs.foldlM (fun b dir => b.createDir dir) b
  return { files := b, keyfile := if external then some text else none, manifest }

/-- `init`. -/
def initRepo (libs : RepoLibs) (fromContent : Bytes → ID) (b : Files) (auth : Auth)
    (external : Bool) (draws : InitDraws) : Except InitError InitFiles :=
  if (b.lookup manifestPath).isSome then .error .repoAlreadyExists
  else
    match createRepo libs fromContent b auth external draws with
    | none => .error .failed
    | some made => .ok made

/-! ## What `init` makes -/

/-- The directories that a repository has in the root of its backend. -/
def topDirs : List Path := [objectsDir, snapshotsDir, indexDir, keysDir, locksDir]

/-- A backend without any of them. -/
structure Fresh (b : Files) : Prop where
  wf : b.WF
  unused : ∀ dir ∈ topDirs, ∀ p, dir <+: p → b.lookup p = none

section Files

variable {b b' : Files} {path p : Path}

theorem Files.WF.createDir (h : b.WF) (hmake : b.createDir path = some b') : b'.WF := by
  obtain ⟨-, hlook⟩ := Files.lookup_createDir hmake
  refine ⟨?_, fun q q' entry hq' hne hpre hneq => ?_⟩
  · rw [hlook, if_neg fun hnil => hnil.2 rfl]
    exact h.root
  · rw [hlook]
    rw [hlook] at hq'
    split
    · rfl
    · rename_i hq
      rw [if_neg fun habove => hq ⟨hpre.trans habove.1, hne⟩] at hq'
      exact h.above q q' entry hq' hne hpre hneq

theorem Files.WF.write {data : Bytes} (h : b.WF) (hpath : path ≠ [])
    (hwrite : b.write path data = some b') : b'.WF := by
  obtain ⟨hdir, -, hlook⟩ := Files.lookup_write hwrite
  have hlen : path.dropLast.length < path.length := by
    rw [List.length_dropLast]
    exact Nat.sub_lt (List.length_pos_iff.mpr hpath) Nat.one_pos
  have habove : ∀ q, q <+: path → q ≠ path → q <+: path.dropLast := by
    intro q hpre hneq
    rw [← List.dropLast_append_getLast hpath] at hpre hneq
    exact (List.prefix_concat_iff.mp hpre).resolve_left hneq
  refine ⟨?_, fun q q' entry hq' hne hpre hneq => ?_⟩
  · rw [hlook, if_neg (Ne.symm hpath), if_neg fun hnil => hnil.2 rfl]
    exact h.root
  · -- what is above the file or a directory above it is such a directory
    have hmade : q' <+: path → b'.lookup q = some .dir := by
      intro hpre'
      have hq : q <+: path.dropLast := habove q (hpre.trans hpre') fun heq =>
        hneq (hpre.eq_of_length (Nat.le_antisymm hpre.length_le (heq ▸ hpre'.length_le)))
      have hother : q ≠ path := by
        rintro rfl
        exact Nat.lt_irrefl _ (hq.length_le.trans_lt hlen)
      rw [hlook, if_neg hother, if_pos ⟨hq, hne⟩]
    by_cases hpre' : q' <+: path
    · exact hmade hpre'
    · have hother' : q' ≠ path := by
        rintro rfl
        exact hpre' List.prefix_rfl
      rw [hlook, if_neg hother',
        if_neg fun habove' => hpre' (habove'.1.trans (List.dropLast_prefix path))] at hq'
      have hq := h.above q q' entry hq' hne hpre hneq
      have hother : q ≠ path := by
        rintro rfl
        exact hdir hq
      rw [hlook, if_neg hother]
      split
      · rfl
      · exact hq

/-- Some directories with all that is above them. -/
theorem foldlM_createDir {dirs : List Path} (h : b.WF)
    (hmake : dirs.foldlM (fun b dir => Files.createDir b dir) b = some b') :
    b'.WF ∧ ∀ p, b'.lookup p =
      if (∃ dir ∈ dirs, p <+: dir) ∧ p ≠ [] then some .dir else b.lookup p := by
  induction dirs generalizing b with
  | nil =>
    cases hmake
    exact ⟨h, fun p => by simp⟩
  | cons dir dirs ih =>
    rw [List.foldlM_cons] at hmake
    obtain ⟨c, hc, hmake⟩ := Option.bind_eq_some_iff.mp hmake
    obtain ⟨hwf, hlook⟩ := ih (h.createDir hc) hmake
    refine ⟨hwf, fun p => ?_⟩
    rw [hlook, (Files.lookup_createDir hc).2]
    simp only [List.exists_mem_cons_iff]
    by_cases hdirs : ∃ d ∈ dirs, p <+: d
    · by_cases hne : p = [] <;> simp [hdirs, hne]
    · simp [hdirs]

end Files

section Keys

variable {crypto : BundleCrypto} {salt : FixedBytes 32} {nonce : Nonce} {created : Int}
  {auth : Auth} {masterKey : Bytes} {keyfile : StoredKeyFile}

/-- A new keyfile opens with its password. -/
theorem masterKey_newKeyFile (h : newKeyFile crypto salt nonce created auth masterKey = some keyfile) :
    keyfile.username = auth.username ∧
      keyfile.masterKey crypto auth.password = some masterKey := by
  obtain ⟨key, hkey, h⟩ := Option.bind_eq_some_iff.mp h
  obtain ⟨encryptedKey, hseal, rfl⟩ := Option.map_eq_some_iff.mp h
  refine ⟨rfl, ?_⟩
  rw [StoredKeyFile.masterKey, Base64.decode_encode, Base64.decode_encode]
  simp only [Except.toOption, Option.bind_eq_bind, Option.bind_some, crypto.build_default, hkey]
  exact SecureStorage.decrypt_sealPayload hseal

end Keys

section Create

variable {libs : RepoLibs} {fromContent : Bytes → ID} {b : Files} {auth : Auth} {external : Bool}
  {draws : InitDraws} {made : InitFiles} {p : Path}

/-- The storage that a repository is initialized with. -/
def InitDraws.storage (libs : RepoLibs) (draws : InitDraws) : SecureStorage :=
  libs.crypto.storage fastLevel draws.masterKey

theorem eq_of_prefix_of_length {dir : Path} (hdir : dir.length = 1) (hpre : p <+: dir)
    (hne : p ≠ []) : p = dir := by
  have hpos := List.length_pos_iff.mpr hne
  exact hpre.eq_of_length (Nat.le_antisymm hpre.length_le (hdir ▸ hpos))

/-- The directories that `init` makes are those of the layout. -/
theorem mem_layoutDirs_iff : p ∈ layoutDirs ↔
    ((∃ dir ∈ initDirs, p <+: dir) ∧ p ≠ []) ∨ p <+: keysDir ∧ p ≠ [] := by
  have htop : ∀ dir ∈ [objectsDir, snapshotsDir, indexDir, locksDir], dir ∈ layoutDirs ∧
      dir.length = 1 := by
    intro dir hdir
    have hall : ∀ d ∈ [objectsDir, snapshotsDir, indexDir, locksDir], d.length = 1 := by decide
    refine ⟨?_, hall dir hdir⟩
    simp only [List.mem_cons, List.not_mem_nil, or_false] at hdir
    rcases hdir with rfl | rfl | rfl | rfl <;> simp [layoutDirs, repoDirs]
  constructor
  · intro hp
    simp only [layoutDirs, repoDirs, List.mem_cons, List.mem_append, List.not_mem_nil,
      or_false] at hp
    rcases hp with rfl | (rfl | rfl | rfl | rfl) | hfanout
    · exact Or.inl ⟨⟨_, List.mem_cons_self, List.prefix_rfl⟩, List.cons_ne_nil _ _⟩
    · exact Or.inl ⟨⟨_, by simp [initDirs], List.prefix_rfl⟩, List.cons_ne_nil _ _⟩
    · exact Or.inr ⟨List.prefix_rfl, List.cons_ne_nil _ _⟩
    · exact Or.inl ⟨⟨_, by simp [initDirs], List.prefix_rfl⟩, List.cons_ne_nil _ _⟩
    · exact Or.inl ⟨⟨_, by simp [initDirs], List.prefix_rfl⟩, List.cons_ne_nil _ _⟩
    · refine Or.inl ⟨⟨p, ?_, List.prefix_rfl⟩, ?_⟩
      · exact List.mem_cons_of_mem _ (List.mem_append_left _ hfanout)
      · rintro rfl
        have hlen := eq_objectsDir_of_length hfanout
        cases hlen
  · rintro (⟨⟨dir, hdir, hpre⟩, hne⟩ | ⟨hpre, hne⟩)
    · simp only [initDirs, List.mem_cons, List.mem_append, List.not_mem_nil, or_false] at hdir
      rcases hdir with rfl | hfanout | hthree
      · obtain ⟨hmem, hlen⟩ := htop objectsDir (by simp)
        exact eq_of_prefix_of_length hlen hpre hne ▸ hmem
      · -- a fanout directory, or the one above it
        by_cases heq : p = dir
        · exact heq ▸ List.mem_cons_of_mem _ (List.mem_append_right _ hfanout)
        · have hobjects : p <+: objectsDir := by
            obtain ⟨n, -, rfl⟩ := List.mem_map.mp hfanout
            exact (List.prefix_concat_iff.mp hpre).resolve_left heq
          obtain ⟨hmem, hlen⟩ := htop objectsDir (by simp)
          exact eq_of_prefix_of_length hlen hobjects hne ▸ hmem
      · obtain ⟨hmem, hlen⟩ := htop dir (by
          simp only [List.mem_cons, List.not_mem_nil, or_false]
          exact Or.inr hthree)
        exact eq_of_prefix_of_length hlen hpre hne ▸ hmem
    · rw [eq_of_prefix_of_length rfl hpre hne]
      simp [layoutDirs, repoDirs]

/-- What the keyfile adds. -/
theorem writeKeyfile_spec {b' : Files} {text : Bytes} (h : b.WF)
    (hwrite : writeKeyfile fromContent b external text = some b') :
    b'.WF ∧ (b.lookup keysDir = some .dir → b'.lookup keysDir = some .dir) ∧
    ∀ p, p ∉ layoutDirs → b'.lookup p =
      if external = false ∧ p = keyPath (fromContent text) then some (.file text)
      else b.lookup p := by
  have hne : keyPath (fromContent text) ≠ [] := by simp [keyPath]
  have hdrop : (keyPath (fromContent text)).dropLast = keysDir := List.dropLast_concat
  cases external with
  | true =>
    cases hwrite
    exact ⟨h, id, fun p _ => by simp⟩
  | false =>
    rw [writeKeyfile, if_neg Bool.false_ne_true] at hwrite
    obtain ⟨-, -, hlook⟩ := Files.lookup_write hwrite
    rw [hdrop] at hlook
    refine ⟨h.write hne hwrite, fun _ => ?_, fun p hp => ?_⟩
    · have hother : keysDir ≠ keyPath (fromContent text) := by simp [keyPath]
      rw [hlook, if_neg hother, if_pos ⟨List.prefix_rfl, List.cons_ne_nil _ _⟩]
    · have hkeys : ¬ (p <+: keysDir ∧ p ≠ []) := fun habove =>
        hp (mem_layoutDirs_iff.mpr (Or.inr habove))
      rw [hlook, if_neg hkeys]
      simp

/-- The files and directories after `init`. -/
theorem createRepo_spec (h : Fresh b)
    (hmade : createRepo libs fromContent b auth external draws = some made) :
    ∃ keyfile text data,
      newKeyFile libs.crypto draws.salt draws.keyNonce draws.keyCreated auth draws.masterKey.val =
        some keyfile ∧
      libs.crypto.compress fastLevel (libs.keyfileJson keyfile) = some text ∧
      (draws.storage libs).encode draws.manifestNonce (libs.manifestJson made.manifest) = some data ∧
      made.keyfile = (if external then some text else none) ∧
      made.manifest.version = thisRepositoryVersion ∧
      made.files.WF ∧
      ∀ p, made.files.lookup p =
        if p ∈ layoutDirs then some .dir
        else if p = manifestPath then some (.file data)
        else if external = false ∧ p = keyPath (fromContent text) then some (.file text)
        else b.lookup p := by
  unfold createRepo at hmade
  obtain ⟨b₁, hkeys, hmade⟩ := Option.bind_eq_some_iff.mp hmade
  obtain ⟨keyfile, hkeyfile, hmade⟩ := Option.bind_eq_some_iff.mp hmade
  obtain ⟨text, htext, hmade⟩ := Option.bind_eq_some_iff.mp hmade
  obtain ⟨b₂, hkey, hmade⟩ := Option.bind_eq_some_iff.mp hmade
  obtain ⟨data, hdata, hmade⟩ := Option.bind_eq_some_iff.mp hmade
  obtain ⟨b₃, hmanifest, hmade⟩ := Option.bind_eq_some_iff.mp hmade
  obtain ⟨b₄, hdirs, hmade⟩ := Option.bind_eq_some_iff.mp hmade
  cases hmade
  refine ⟨keyfile, text, data, hkeyfile, htext, hdata, rfl, rfl, ?_⟩
  have hwf₁ := h.wf.createDir hkeys
  have hlook₁ := (Files.lookup_createDir hkeys).2
  obtain ⟨hwf₂, hkeys₂, hlook₂⟩ := writeKeyfile_spec hwf₁ hkey
  have hwf₃ := hwf₂.write (List.cons_ne_nil _ _) hmanifest
  have hlook₃ : ∀ p, b₃.lookup p = if p = manifestPath then some (.file data) else b₂.lookup p := by
    intro p
    rw [(Files.lookup_write hmanifest).2.2, if_neg (c := _ ∧ _)]
    rintro ⟨hpre, hne⟩
    exact hne (List.prefix_nil.mp hpre)
  obtain ⟨hwf₄, hlook₄⟩ := foldlM_createDir hwf₃ hdirs
  refine ⟨hwf₄, fun p => ?_⟩
  rw [hlook₄]
  by_cases hmade : (∃ dir ∈ initDirs, p <+: dir) ∧ p ≠ []
  · rw [if_pos hmade, if_pos (mem_layoutDirs_iff.mpr (Or.inl hmade))]
  · rw [if_neg hmade, hlook₃]
    by_cases hp : p ∈ layoutDirs
    · -- only the directory of the keyfiles is left
      obtain ⟨hpre, hne⟩ := (mem_layoutDirs_iff.mp hp).resolve_left hmade
      have heq : p = keysDir := eq_of_prefix_of_length rfl hpre hne
      have hother : keysDir ≠ manifestPath := by decide
      have hdir : b₁.lookup keysDir = some .dir := by
        rw [hlook₁, if_pos ⟨List.prefix_rfl, List.cons_ne_nil _ _⟩]
      rw [if_pos hp, heq, if_neg hother, hkeys₂ hdir]
    · have hkeys : ¬ (p <+: keysDir ∧ p ≠ []) := fun habove =>
        hp (mem_layoutDirs_iff.mpr (Or.inr habove))
      rw [if_neg hp, hlook₂ p hp, hlook₁, if_neg hkeys]

/-- The path is one of a directory of the repository. -/
def UnderTop (p : Path) : Prop := ∃ dir ∈ topDirs, dir <+: p

instance (p : Path) : Decidable (UnderTop p) :=
  inferInstanceAs (Decidable (∃ dir ∈ topDirs, dir <+: p))

theorem underTop_of_repoDirs {dir : Path} (h : dir ∈ repoDirs) (hpre : dir <+: p) : UnderTop p := by
  rcases List.mem_append.mp h with hfour | hfanout
  · refine ⟨dir, ?_, hpre⟩
    simp only [List.mem_cons, List.not_mem_nil, or_false] at hfour
    rcases hfour with rfl | rfl | rfl | rfl <;> simp [topDirs]
  · obtain ⟨n, -, rfl⟩ := List.mem_map.mp hfanout
    exact ⟨objectsDir, List.mem_cons_self, (List.prefix_append _ _).trans hpre⟩

theorem underTop_of_layoutDirs (h : p ∈ layoutDirs) : UnderTop p := by
  rcases List.mem_cons.mp h with rfl | hrepo
  · exact ⟨_, List.mem_cons_self, List.prefix_rfl⟩
  · exact underTop_of_repoDirs hrepo List.prefix_rfl

theorem underTop_keyPath (id : ID) : UnderTop (keyPath id) :=
  underTop_of_repoDirs (show keysDir ∈ repoDirs by simp [repoDirs]) (List.prefix_append _ _)

theorem not_underTop_manifestPath : ¬ UnderTop manifestPath := by decide

/-- The layout is about the paths of the repository. -/
theorem LaidOut.congr {c b' : Files} (h : LaidOut c) (hwf : b'.WF)
    (hlook : ∀ p, UnderTop p → b'.lookup p = c.lookup p) : LaidOut b' := by
  have hdrop : ∀ p : Path, p.dropLast ∈ repoDirs → b'.lookup p = c.lookup p := fun p hp =>
    hlook p (underTop_of_repoDirs hp (List.dropLast_prefix p))
  refine
    { wf := hwf
      dirs := fun dir hdir => ?_
      flat := fun p hp => ?_
      normal := fun p hp => ?_
      named := fun fileType dir name id hdir => ?_
      objects := fun p entry hp hpre => ?_ }
  · rw [hlook dir (underTop_of_repoDirs hdir List.prefix_rfl)]
    exact h.dirs dir hdir
  · rw [hdrop p hp]
    exact h.flat p hp
  · rw [hdrop p hp]
    exact h.normal p hp
  · rw [hdrop _ (by rw [List.dropLast_concat]; exact mem_repoDirs_of_typeDirs hdir)]
    exact h.named fileType dir name id hdir
  · rw [hlook p ⟨objectsDir, List.mem_cons_self, hpre⟩] at hp
    exact h.objects p entry hp hpre

/-- The layout of what `init` makes, and its files. -/
theorem laidOut_made {text data : Bytes} {b' : Files} (h : Fresh b) (hwf : b'.WF)
    (hlook : ∀ p, b'.lookup p =
      if p ∈ layoutDirs then some .dir
      else if p = manifestPath then some (.file data)
      else if external = false ∧ p = keyPath (fromContent text) then some (.file text)
      else b.lookup p) :
    LaidOut b' ∧ ∀ file, (b'.stored file).isSome ↔
      external = false ∧ file = ⟨.key, fromContent text, none⟩ := by
  have hunder : ∀ p, UnderTop p → b'.lookup p = if p ∈ layoutDirs then some .dir
      else if external = false ∧ p = keyPath (fromContent text) then some (.file text)
      else none := by
    intro p hp
    have hother : p ≠ manifestPath := by
      rintro rfl
      exact not_underTop_manifestPath hp
    obtain ⟨dir, hdir, hpre⟩ := hp
    rw [hlook, if_neg hother, h.unused dir hdir p hpre]
  have hpath : ∀ file : RepoFile, UnderTop file.path := fun file =>
    underTop_of_repoDirs file.dir_mem (file.path_eq ▸ List.prefix_append _ _)
  cases hext : external with
  | true =>
    have hlaid : LaidOut b' := laidOut_emptyRepo.congr hwf fun p hp => by
      rw [hunder p hp, lookup_emptyRepo, hext]
      simp
    refine ⟨hlaid, fun file => ?_⟩
    have hnone : b'.lookup file.path = none := by
      have hempty := laidOut_emptyRepo.lookup_path_ne file
      rw [lookup_emptyRepo] at hempty
      rw [hunder _ (hpath file), if_neg fun hmem => hempty (if_pos hmem), hext]
      simp
    simp [Files.stored, Files.fileAt, hnone]
  | false =>
    obtain ⟨c, -, hc⟩ := laidOut_emptyRepo.write ⟨.key, fromContent text, none⟩ text
    obtain ⟨hlaid, hstored⟩ := laidOut_emptyRepo.set _ (some text) hc
    have hkey : RepoFile.path ⟨.key, fromContent text, none⟩ = keyPath (fromContent text) :=
      (getPath_eq_path .key _).symm
    have hsame : ∀ p, UnderTop p → b'.lookup p = c.lookup p := by
      intro p hp
      rw [hunder p hp, hc, hkey, lookup_emptyRepo, hext]
      by_cases hmem : p ∈ layoutDirs
      · have hother : p ≠ keyPath (fromContent text) := by
          rintro rfl
          have hdir := laidOut_emptyRepo.lookup_path_ne ⟨.key, fromContent text, none⟩
          rw [hkey, lookup_emptyRepo] at hdir
          exact hdir (if_pos hmem)
        rw [if_pos hmem, if_neg hother, if_pos hmem]
      · simp [hmem]
    refine ⟨hlaid.congr hwf hsame, fun file => ?_⟩
    have hfile : b'.stored file = c.stored file := by
      rw [Files.stored, Files.fileAt, hsame _ (hpath file)]
      rfl
    rw [hfile, hstored]
    by_cases heq : file = ⟨.key, fromContent text, none⟩
    · simp [heq]
    · rw [Function.update_of_ne heq]
      simp [Files.stored, Files.fileAt, lookup_emptyRepo, heq]

theorem lookup_of_fresh (h : Fresh b) (hp : UnderTop p) : b.lookup p = none := by
  obtain ⟨dir, hdir, hpre⟩ := hp
  exact h.unused dir hdir p hpre

/-- Directories can be made where no file is in the way, and no file is afterwards. -/
theorem exists_foldlM_createDir (b : Files) (dirs : List Path)
    (hfree : ∀ dir ∈ dirs, ∀ p, p <+: dir → p ≠ [] → b.fileAt p = none) :
    ∃ b', dirs.foldlM (fun b dir => Files.createDir b dir) b = some b' := by
  induction dirs generalizing b with
  | nil => exact ⟨b, rfl⟩
  | cons dir dirs ih =>
    have hmake : b.createDir dir =
        some ((Files.dirsOf dir).foldl (fun b p => b.insert p .dir) b) := by
      refine if_pos (List.all_eq_true.mpr fun p hp => ?_)
      obtain ⟨hpre, hne⟩ := Files.mem_dirsOf.mp hp
      rw [hfree dir List.mem_cons_self p hpre hne]
      rfl
    rw [List.foldlM_cons, hmake]
    refine ih _ fun d hd p hpre hne => ?_
    rw [Files.fileAt, (Files.lookup_createDir hmake).2]
    split
    · rename_i heq
      split at heq
      · cases heq
      · have hfile := hfree d (List.mem_cons_of_mem _ hd) p hpre hne
        rw [Files.fileAt_eq_some.mpr heq] at hfile
        cases hfile
    · rfl

theorem exists_write (b : Files) (path : Path) (data : Bytes) (hdir : b.lookup path ≠ some .dir)
    (hfree : ∀ p, p <+: path.dropLast → p ≠ [] → b.fileAt p = none) :
    ∃ b', b.write path data = some b' := by
  obtain ⟨b', hmake⟩ := exists_foldlM_createDir b [path.dropLast]
    fun dir hmem p hpre hne => hfree p (List.mem_singleton.mp hmem ▸ hpre) hne
  rw [List.foldlM_cons] at hmake
  obtain ⟨_, hmake, heq⟩ := Option.bind_eq_some_iff.mp hmake
  cases heq
  exact ⟨_, by rw [Files.write, if_neg hdir, hmake]; rfl⟩

/-- A write leaves the directories without files in the way. -/
theorem fileAt_of_write {b' : Files} {path : Path} {data : Bytes}
    (hwrite : b.write path data = some b') (hp : p ≠ path) (hfree : b.fileAt p = none) :
    b'.fileAt p = none := by
  refine Files.fileAt_eq_none.mpr ?_
  rw [(Files.lookup_write hwrite).2.2, if_neg hp]
  split
  · exact Or.inr rfl
  · exact Files.fileAt_eq_none.mp hfree

/-- `init` succeeds when the libraries do. -/
theorem initRepo_succeeds {keyfile : StoredKeyFile} {text data : Bytes} (h : Fresh b)
    (hmanifest : b.lookup manifestPath = none)
    (hkeyfile : newKeyFile libs.crypto draws.salt draws.keyNonce draws.keyCreated auth
      draws.masterKey.val = some keyfile)
    (htext : (draws.storage libs).compress (libs.keyfileJson keyfile) = some text)
    (hdata : (draws.storage libs).encode draws.manifestNonce (libs.manifestJson
      ⟨thisRepositoryVersion, draws.manifestId, draws.seconds, draws.nanos⟩) = some data) :
    ∃ made, initRepo libs fromContent b auth external draws = .ok made := by
  have hfree : ∀ p, p ∈ layoutDirs → b.fileAt p = none := fun p hp =>
    Files.fileAt_eq_none.mpr (Or.inl (lookup_of_fresh h (underTop_of_layoutDirs hp)))
  obtain ⟨b₁, hkeys⟩ := exists_foldlM_createDir b [keysDir] fun dir hdir p hpre hne =>
    hfree p (mem_layoutDirs_iff.mpr (Or.inr ⟨List.mem_singleton.mp hdir ▸ hpre, hne⟩))
  rw [List.foldlM_cons] at hkeys
  obtain ⟨_, hkeys, heq⟩ := Option.bind_eq_some_iff.mp hkeys
  cases heq
  have hlook₁ := (Files.lookup_createDir hkeys).2
  have hdir₁ : b₁.lookup keysDir = some .dir := by
    rw [hlook₁, if_pos ⟨List.prefix_rfl, List.cons_ne_nil _ _⟩]
  have hfree₁ : ∀ p, p ∈ layoutDirs → b₁.fileAt p = none := by
    intro p hp
    rw [Files.fileAt, hlook₁, lookup_of_fresh h (underTop_of_layoutDirs hp)]
    split
    · rename_i heq
      split at heq <;> cases heq
    · rfl
  have hmanifest₁ : b₁.lookup manifestPath = none := by
    rw [hlook₁, if_neg (by decide), hmanifest]
  obtain ⟨b₂, hkey, hfree₂, hmanifest₂⟩ : ∃ b₂, writeKeyfile fromContent b₁ external text = some b₂ ∧
      (∀ p, p ∈ layoutDirs → b₂.fileAt p = none) ∧ b₂.lookup manifestPath = none := by
    cases external with
    | true => exact ⟨b₁, rfl, hfree₁, hmanifest₁⟩
    | false =>
      have hdrop : (keyPath (fromContent text)).dropLast = keysDir := List.dropLast_concat
      have hnotPre : ¬ keyPath (fromContent text) <+: keysDir := fun hpre =>
        absurd hpre.length_le (by simp [keyPath])
      have hnone : b₁.lookup (keyPath (fromContent text)) ≠ some .dir := by
        rw [hlook₁, if_neg fun h => hnotPre h.1, lookup_of_fresh h (underTop_keyPath _)]
        exact (Option.some_ne_none _).symm
      obtain ⟨b₂, hwrite⟩ := exists_write _ _ text hnone fun p hpre hne => by
        rw [hdrop] at hpre
        exact hfree₁ p (mem_layoutDirs_iff.mpr (Or.inr ⟨hpre, hne⟩))
      refine ⟨b₂, hwrite, fun p hp => fileAt_of_write hwrite ?_ (hfree₁ p hp), ?_⟩
      · rintro rfl
        refine dropLast_notMem hp ?_
        rw [hdrop]
        simp [repoDirs]
      · have hother : manifestPath ≠ keyPath (fromContent text) := by
          intro heq
          exact not_underTop_manifestPath (heq ▸ underTop_keyPath _)
        rw [(Files.lookup_write hwrite).2.2, if_neg hother, hdrop, if_neg (by decide), hmanifest₁]
  obtain ⟨b₃, hwrite⟩ := exists_write b₂ manifestPath data
    (by rw [hmanifest₂]; exact (Option.some_ne_none _).symm) fun p hpre hne => absurd (List.prefix_nil.mp hpre) hne
  have hfree₃ : ∀ p, p ∈ layoutDirs → b₃.fileAt p = none := fun p hp => by
    refine fileAt_of_write hwrite ?_ (hfree₂ p hp)
    rintro rfl
    exact not_underTop_manifestPath (underTop_of_layoutDirs hp)
  obtain ⟨b₄, hdirs⟩ := exists_foldlM_createDir b₃ initDirs fun dir hdir p hpre hne =>
    hfree₃ p (mem_layoutDirs_iff.mpr (Or.inl ⟨⟨dir, hdir, hpre⟩, hne⟩))
  refine ⟨⟨b₄, if external then some text else none,
    ⟨thisRepositoryVersion, draws.manifestId, draws.seconds, draws.nanos⟩⟩, ?_⟩
  have hmade : createRepo libs fromContent b auth external draws = some ⟨b₄,
      if external then some text else none,
      ⟨thisRepositoryVersion, draws.manifestId, draws.seconds, draws.nanos⟩⟩ := by
    rw [InitDraws.storage] at htext hdata
    simp only [createRepo, hkeys, hkeyfile, htext, hkey, hdata, hwrite, hdirs, Option.bind_eq_bind,
      Option.bind_some, Option.pure_def]
  rw [initRepo, hmanifest, if_neg (by simp), hmade]

/-! ## Opening what `init` made -/

variable (libs external) in
/-- The keyfile is the only one that is found. -/
theorem retrieveKey_made {b' : Files} {text : Bytes} {keyfile : StoredKeyFile} (hlaid : LaidOut b')
    (honly : ∀ p, p.dropLast = keysDir → b'.lookup p ≠ none → p = keyPath (fromContent text))
    (hfile : external = false → b'.fileAt (keyPath (fromContent text)) = some text)
    (htext : libs.crypto.compress fastLevel (libs.keyfileJson keyfile) = some text)
    (auth' : Auth) :
    retrieveKey libs b' auth' (if external then some text else none) =
      if keyfile.username = auth'.username then
        match keyfile.masterKey libs.crypto auth'.password with
        | none => .error (if external then .failed else wrongPassword)
        | some key => .ok (if external then none else some (fromContent text), key)
      else .error wrongPassword := by
  have hdecompress : libs.crypto.decompress text = some (libs.keyfileJson keyfile) :=
    libs.crypto.decompress_compress htext
  cases hext : external with
  | true =>
    rw [if_pos rfl, retrieveKey, hdecompress]
    dsimp only
    rw [libs.parse_keyfileJson]
    dsimp only
    by_cases huser : keyfile.username = auth'.username
    · rw [if_neg (not_not.mpr huser), if_pos huser]
      cases keyfile.masterKey libs.crypto auth'.password <;> rfl
    · rw [if_pos huser, if_neg huser]
  | false =>
    obtain ⟨paths, hlist, hnodup, hmem⟩ := listPaths_spec
      (Or.inr (hlaid.dirs keysDir (by simp [repoDirs])) : b'.IsDir keysDir)
    have hpaths : paths = [keyPath (fromContent text)] := by
      refine List.perm_singleton.mp ((List.perm_ext_iff_of_nodup hnodup
        (List.nodup_singleton _)).mpr fun p => ?_)
      rw [hmem, List.mem_singleton]
      constructor
      · rintro ⟨-, hdir, hlook⟩
        exact honly p hdir hlook
      · rintro rfl
        refine ⟨by simp [keyPath], List.dropLast_concat, ?_⟩
        rw [Files.fileAt_eq_some.mp (hfile hext)]
        exact Option.some_ne_none _
    have hentry : loadKeyEntry libs b' (keyPath (fromContent text)) =
        some (some (fromContent text, keyfile)) := by
      rw [loadKeyEntry, hfile hext, keyPath, fileName_append]
      dsimp only
      rw [fromHex_hexName]
      dsimp only
      rw [readAt_zero, hdecompress]
      dsimp only
      rw [libs.parse_keyfileJson]
      rfl
    have hstream : keyFileStream libs b' = .ok [some (fromContent text, keyfile)] := by
      rw [keyFileStream, hlist, hpaths]
      show Except.ok ([keyPath (fromContent text)].filterMap (loadKeyEntry libs b')) = _
      rw [List.filterMap_cons_some hentry, List.filterMap_nil]
    rw [if_neg Bool.false_ne_true, retrieveKey, hstream]
    dsimp only
    by_cases huser : keyfile.username = auth'.username
    · rw [if_pos huser]
      cases hkey : keyfile.masterKey libs.crypto auth'.password with
      | none => simp [huser, hkey]
      | some key => simp [huser, hkey]
    · simp [huser]

end Create

/-- **A new repository can be opened by its creator.** When `init` succeeds on a backend without the
directories of a repository, the repository has its layout and no file but the keyfile, unless that has
a path of its own, and nothing else of the backend has changed but the manifest. Its creator opens it
at any compression level and gets the manifest that `init` returned. Another user name, or a password
that does not open the keyfile, is refused. It is not initialized a second time. -/
theorem init_then_open (libs : RepoLibs) (fromContent : Bytes → ID) (b : Files) (auth : Auth)
    (external : Bool) (draws : InitDraws) (made : InitFiles) (hfresh : Fresh b)
    (hinit : initRepo libs fromContent b auth external draws = .ok made) :
    LaidOut made.files ∧
    (∃ keyId, ∀ file, (made.files.stored file).isSome ↔
      external = false ∧ file = ⟨.key, keyId, none⟩) ∧
    (∀ p, ¬ UnderTop p → p ≠ manifestPath → made.files.lookup p = b.lookup p) ∧
    (∀ level, tryOpenUnlocked libs made.files auth made.keyfile level =
      .ok (made.manifest, libs.crypto.storage level draws.masterKey)) ∧
    (∃ keyfile, newKeyFile libs.crypto draws.salt draws.keyNonce draws.keyCreated auth
        draws.masterKey.val = some keyfile ∧
      ∀ auth' level, auth'.username ≠ auth.username ∨
          keyfile.masterKey libs.crypto auth'.password = none →
        tryOpenUnlocked libs made.files auth' made.keyfile level =
          .error (if external ∧ auth'.username = auth.username then .failed else wrongPassword)) ∧
    ∀ auth' external' draws', initRepo libs fromContent made.files auth' external' draws' =
      .error .repoAlreadyExists := by
  unfold initRepo at hinit
  split at hinit
  · cases hinit
  · split at hinit
    · cases hinit
    · rename_i made' hmade
      cases hinit
      obtain ⟨keyfile, text, data, hkeyfile, htext, hdata, hkey, hversion, hwf, hlook⟩ :=
        createRepo_spec hfresh hmade
      obtain ⟨hlaid, hstored⟩ := laidOut_made hfresh hwf hlook
      obtain ⟨huser, hopens⟩ := masterKey_newKeyFile hkeyfile
      -- the keyfile is alone in its directory
      have hunder : ∀ p, p.dropLast = keysDir → UnderTop p ∧ p ∉ layoutDirs := by
        intro p hp
        have hdir : p.dropLast ∈ repoDirs := by
          rw [hp]
          simp [repoDirs]
        exact ⟨underTop_of_repoDirs hdir (List.dropLast_prefix p), fun h => dropLast_notMem h hdir⟩
      have hmanifest : ∀ p, UnderTop p → p ≠ manifestPath := by
        rintro p hp rfl
        exact not_underTop_manifestPath hp
      have honly : ∀ p, p.dropLast = keysDir → made.files.lookup p ≠ none →
          p = keyPath (fromContent text) := by
        intro p hp hne
        obtain ⟨hup, hnot⟩ := hunder p hp
        obtain ⟨dir, hdir, hpre⟩ := hup
        rw [hlook, if_neg hnot, if_neg (hmanifest p ⟨dir, hdir, hpre⟩),
          hfresh.unused dir hdir p hpre] at hne
        by_contra hother
        rw [if_neg fun h => hother h.2] at hne
        exact hne rfl
      have hfile : external = false → made.files.fileAt (keyPath (fromContent text)) = some text := by
        intro hext
        obtain ⟨hup, hnot⟩ := hunder (keyPath (fromContent text)) List.dropLast_concat
        refine Files.fileAt_eq_some.mpr ?_
        rw [hlook, if_neg hnot, if_neg (hmanifest _ hup), if_pos ⟨hext, rfl⟩]
      have hnotDir : manifestPath ∉ layoutDirs := fun h =>
        not_underTop_manifestPath (underTop_of_layoutDirs h)
      have hat : made.files.fileAt manifestPath = some data := by
        refine Files.fileAt_eq_some.mpr ?_
        rw [hlook, if_neg hnotDir, if_pos rfl]
      have hretrieve := retrieveKey_made libs external hlaid honly hfile htext
      refine ⟨hlaid, ⟨_, hstored⟩, fun p hp hother => ?_, fun level => ?_,
        ⟨keyfile, hkeyfile, fun auth' level hrefused => ?_⟩, fun auth' external' draws' => ?_⟩
      · have hkeyPath : p ≠ keyPath (fromContent text) := by
          rintro rfl
          exact hp (underTop_keyPath _)
        rw [hlook, if_neg fun h => hp (underTop_of_layoutDirs h), if_neg hother,
          if_neg fun h => hkeyPath h.2]
      · have hstorage : withKey libs.crypto level draws.masterKey.val =
            some (libs.crypto.storage level draws.masterKey) := dif_pos draws.masterKey.property
        have hdecode : (libs.crypto.storage level draws.masterKey).decode data =
            some (libs.manifestJson made.manifest) := BundleCrypto.decode_encode hdata
        rw [tryOpenUnlocked, hkey, hretrieve, if_pos huser, hopens]
        dsimp only
        rw [hstorage]
        dsimp only
        rw [hat]
        dsimp only
        rw [readAt_zero, hdecode]
        dsimp only
        rw [libs.parse_manifestJson]
        dsimp only
        rw [hversion, if_neg (by decide)]
      · have hret : retrieveKey libs made.files auth' made.keyfile =
            .error (if external ∧ auth'.username = auth.username then .failed
              else wrongPassword) := by
          rw [hkey, hretrieve, huser]
          by_cases hname : auth.username = auth'.username
          · rw [if_pos hname, hrefused.resolve_left (not_not.mpr hname.symm)]
            simp [hname]
          · rw [if_neg hname, if_neg fun h => hname h.2.symm]
        rw [tryOpenUnlocked, hret]
      · rw [initRepo, if_pos]
        rw [Files.fileAt_eq_some.mp hat]
        rfl

/-! ### An empty backend -/

/-- The JSON of the samples: as many bytes as the number of the value. -/
def numberText {α : Type} [Encodable α] (a : α) : Bytes := List.replicate (Encodable.encode a) 48

def parseNumber (α : Type) [Encodable α] (text : Bytes) : Option α := Encodable.decode text.length

theorem parseNumber_numberText {α : Type} [Encodable α] (a : α) :
    parseNumber α (numberText a) = some a := by
  rw [parseNumber, numberText, List.length_replicate, Encodable.encodek]

/-- The libraries of the samples. -/
def sampleLibs : RepoLibs where
  crypto := BundleReader.sampleBundleCrypto
  keyfileJson keyfile := numberText (keyfile.created, keyfile.username.toList.map Char.toNat,
    keyfile.params.m, keyfile.params.t, keyfile.params.p, keyfile.salt.map UInt8.toNat,
    keyfile.encryptedKey.map UInt8.toNat)
  parseKeyfile text := (parseNumber (Int × List Nat × Nat × Nat × Nat × List Nat × List Nat) text).map
    fun (created, username, m, t, p, salt, encryptedKey) =>
      { created
        username := String.ofList (username.map Char.ofNat)
        params := ⟨m, t, p⟩
        salt := salt.map UInt8.ofNat
        encryptedKey := encryptedKey.map UInt8.ofNat }
  manifestJson manifest := numberText (manifest.version.toNat, manifest.id, manifest.seconds.toInt,
    manifest.nanos.toNat)
  parseManifest text := (parseNumber (Nat × ID × Int × Nat) text).map
    fun (version, id, seconds, nanos) =>
      ⟨UInt32.ofNat version, id, Int64.ofInt seconds, UInt32.ofNat nanos⟩
  parse_keyfileJson := by
    intro keyfile
    rw [parseNumber_numberText]
    simp [Function.comp_def]
  parse_manifestJson := by
    intro manifest
    rw [parseNumber_numberText]
    simp

/-- The draws of the samples. -/
def sampleDraws : InitDraws :=
  ⟨⟨List.replicate 32 7, rfl⟩, ⟨List.replicate 32 1, rfl⟩, sampleNonce, 0, 5, 0, 0, sampleNonce⟩

theorem init_then_open_empty :
    ∃ made, initRepo sampleLibs (fun _ => 3) ∅ ⟨"u", "pw"⟩ false sampleDraws = .ok made ∧
      LaidOut made.files ∧
      tryOpenUnlocked sampleLibs made.files ⟨"u", "pw"⟩ made.keyfile 19 =
        .ok (made.manifest, sampleLibs.crypto.storage 19 sampleDraws.masterKey) := by
  have hfresh : Fresh ∅ := ⟨⟨rfl, fun p p' entry h => by cases h⟩, fun dir hdir p hpre => rfl⟩
  obtain ⟨made, hinit⟩ : ∃ made, initRepo sampleLibs (fun _ => 3) ∅ ⟨"u", "pw"⟩ false sampleDraws =
      .ok made := initRepo_succeeds hfresh rfl rfl rfl rfl
  obtain ⟨hlaid, -, -, hopen, -⟩ := init_then_open sampleLibs (fun _ => 3) ∅ ⟨"u", "pw"⟩ false
    sampleDraws made hfresh hinit
  exact ⟨made, hinit, hlaid, hopen 19⟩

end Mapache
