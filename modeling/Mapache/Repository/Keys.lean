import Mathlib.Data.List.Nodup
import Mapache.Common
import Mapache.Lib.Run
import Mapache.Lib.Table
import Mapache.Repository.Storage

/-!
# Keyfiles

A keyfile holds the master key of the repository, encrypted with a key that is derived from the
password of a user. `key add` saves a keyfile for another user; `key change-password` looks for the
only keyfile of its user, saves one with the new password and deletes the old one. Neither takes a
lock, each step of one may be followed by steps of others, and a command may stop after every step.

As long as `key add` is given no keyfile of another repository, each user can get the master key
with the password of the keyfile that was saved for him last. If moreover no change-password stops
between its two steps, and every keyfile is saved while its user has no other one than that to be
replaced, then a user whose keyfile is not just being replaced has exactly one, which is what the
next change-password asks for (`passwords_stay_valid`). A change-password that stops leaves two
keyfiles behind, and the next one fails (`stopped_change_blocks_next`).
-/

set_option autoImplicit false

namespace Mapache

open Lib

/-! ## Keyfiles and passwords -/

/-- `argon2::Params`. -/
structure Argon2Params where
  m : Nat
  t : Nat
  p : Nat
  deriving DecidableEq

/-- `KeyFile`. The salt and the encrypted key are the bytes of their base64 texts. -/
structure KeyFile where
  username : String
  params : Argon2Params
  salt : Bytes
  encryptedKey : Bytes
  deriving DecidableEq

/-- `Auth`. -/
structure Auth where
  username : String
  password : String
  deriving DecidableEq

/-- The derivation of a key from a password, and the storage with a key. What one key has sealed no
key opens as something else. -/
structure KeyCrypto where
  defaultParams : Argon2Params
  deriveKey : String → Bytes → Argon2Params → Option Bytes
  storage : Bytes → SecureStorage
  authentic : ∀ {key key' : Bytes} {nonce : Nonce} {x out y : Bytes},
    (storage key).sealPayload nonce x = some out → (storage key').decrypt out = some y → y = x

section KeyFiles

variable (crypto : KeyCrypto)

/-- `KeyManager::decode_master_key`. -/
def decodeMasterKey (password : String) (keyfile : KeyFile) : Option Bytes :=
  (crypto.deriveKey password keyfile.salt keyfile.params).bind fun key =>
    (crypto.storage key).decrypt keyfile.encryptedKey

/-- `KeyManager::generate_key_file`, with the salt and the nonce it draws. -/
def generateKeyFile (salt : Bytes) (nonce : Nonce) (auth : Auth) (masterKey : Bytes) :
    Option KeyFile :=
  (crypto.deriveKey auth.password salt crypto.defaultParams).bind fun key =>
    ((crypto.storage key).sealPayload nonce masterKey).map fun encryptedKey =>
      { username := auth.username, params := crypto.defaultParams, salt, encryptedKey }

/-- The keyfile holds the key. -/
def Seals (masterKey : Bytes) (keyfile : KeyFile) : Prop :=
  ∃ key nonce, (crypto.storage key).sealPayload nonce masterKey = some keyfile.encryptedKey

variable {crypto} {masterKey k : Bytes} {keyfile : KeyFile} {auth : Auth}

theorem Seals.decode_eq {password : String} (h : Seals crypto masterKey keyfile)
    (hdecode : decodeMasterKey crypto password keyfile = some k) : k = masterKey := by
  obtain ⟨key, nonce, hseal⟩ := h
  obtain ⟨key', -, hopen⟩ := Option.bind_eq_some_iff.mp hdecode
  exact crypto.authentic hseal hopen

/-- A generated keyfile gives the key back for its password. -/
theorem generateKeyFile_spec {salt : Bytes} {nonce : Nonce}
    (h : generateKeyFile crypto salt nonce auth masterKey = some keyfile) :
    keyfile.username = auth.username ∧
      decodeMasterKey crypto auth.password keyfile = some masterKey ∧
      Seals crypto masterKey keyfile := by
  obtain ⟨key, hkey, h⟩ := Option.bind_eq_some_iff.mp h
  obtain ⟨encryptedKey, hseal, rfl⟩ := Option.map_eq_some_iff.mp h
  refine ⟨rfl, ?_, key, nonce, hseal⟩
  rw [decodeMasterKey, hkey]
  exact SecureStorage.decrypt_sealPayload hseal

end KeyFiles

/-! ## The key manager -/

/-- `KeyManagerError`, of those that do not come from an operation that failed. -/
inductive KeyManagerError where
  | noKeyfilesFound
  | noMatchingKeyfile
  deriving DecidableEq

/-- What the stream of the keyfiles gives for a file: nothing where it is no keyfile. -/
abbrev KeyEntry := ID × Option KeyFile

/-- The keyfile of an entry, if it is one of the user. -/
def KeyEntry.ofUser (username : String) (e : KeyEntry) : Option (ID × KeyFile) :=
  e.2.bind fun keyfile => if keyfile.username = username then some (e.1, keyfile) else none

/-- The key that an entry gives to a user. -/
def KeyEntry.opens (crypto : KeyCrypto) (auth : Auth) (e : KeyEntry) : Option (ID × Bytes) :=
  (KeyEntry.ofUser auth.username e).bind fun (id, keyfile) =>
    (decodeMasterKey crypto auth.password keyfile).map fun key => (id, key)

/-- `KeyManager::retrieve_master_key` without the path of a keyfile. -/
def retrieveMasterKey (crypto : KeyCrypto) (auth : Auth) (entries : List KeyEntry) :
    Except KeyManagerError (ID × Bytes) :=
  match entries.findSome? (KeyEntry.opens crypto auth) with
  | some found => .ok found
  | none =>
    if entries.any fun e => e.2.isSome then .error .noMatchingKeyfile else .error .noKeyfilesFound

/-- `KeyManager::load_keyfile_with_username`. -/
def loadKeyfileWithUsername (username : String) (entries : List KeyEntry) :
    Except String (Option (ID × KeyFile)) :=
  match entries.filterMap (KeyEntry.ofUser username) with
  | [] => .ok none
  | [found] => .ok (some found)
  | _ => .error s!"more than one Keyfile found for username {username}"

section Manager

variable {crypto : KeyCrypto} {username : String} {entries : List KeyEntry} {id : ID}
  {keyfile : KeyFile} {e : KeyEntry}

theorem ofUser_eq_some {f : Option KeyFile} {found : ID × KeyFile} :
    KeyEntry.ofUser username (id, f) = some found ↔
      f = some found.2 ∧ found.1 = id ∧ found.2.username = username := by
  unfold KeyEntry.ofUser
  constructor
  · intro h
    obtain ⟨keyfile, hf, h⟩ := Option.bind_eq_some_iff.mp h
    split at h
    · rename_i huser
      cases h
      exact ⟨hf, rfl, huser⟩
    · cases h
  · rintro ⟨rfl, rfl, huser⟩
    simp [huser]

theorem ofUser_self (huser : keyfile.username = username) :
    KeyEntry.ofUser username (id, some keyfile) = some (id, keyfile) :=
  ofUser_eq_some.mpr ⟨rfl, rfl, huser⟩

/-- A user whose password opens one of the keyfiles gets the key. -/
theorem retrieveMasterKey_of_mem {masterKey : Bytes} {password : String}
    (hseals : ∀ id keyfile, (id, some keyfile) ∈ entries → Seals crypto masterKey keyfile)
    (hmem : (id, some keyfile) ∈ entries) (huser : keyfile.username = username)
    (hdecode : decodeMasterKey crypto password keyfile = some masterKey) :
    ∃ id', retrieveMasterKey crypto ⟨username, password⟩ entries = .ok (id', masterKey) := by
  have hopens : KeyEntry.opens crypto ⟨username, password⟩ (id, some keyfile) =
      some (id, masterKey) := by
    rw [KeyEntry.opens, ofUser_self huser, Option.bind_some]
    show (decodeMasterKey crypto password keyfile).map _ = _
    rw [hdecode, Option.map_some]
  cases hfind : entries.findSome? (KeyEntry.opens crypto ⟨username, password⟩) with
  | none =>
    have hnone := List.findSome?_eq_none_iff.mp hfind _ hmem
    rw [hopens] at hnone
    cases hnone
  | some found =>
    obtain ⟨⟨id', f⟩, hmem', hopens'⟩ := List.exists_of_findSome?_eq_some hfind
    obtain ⟨⟨id'', keyfile'⟩, huser', hmap⟩ := Option.bind_eq_some_iff.mp hopens'
    obtain ⟨rfl, -, -⟩ := ofUser_eq_some.mp huser'
    obtain ⟨key, hkey, rfl⟩ := Option.map_eq_some_iff.mp hmap
    refine ⟨id'', ?_⟩
    rw [retrieveMasterKey, hfind, (hseals id' keyfile' hmem').decode_eq hkey]

/-- The only keyfile of a user is found. -/
theorem loadKeyfileWithUsername_of_unique (hnodup : (entries.map Prod.fst).Nodup)
    (hmem : (id, some keyfile) ∈ entries) (huser : keyfile.username = username)
    (honly : ∀ id' keyfile', (id', some keyfile') ∈ entries → keyfile'.username = username →
      id' = id) :
    loadKeyfileWithUsername username entries = .ok (some (id, keyfile)) := by
  have hlist : entries.filterMap (KeyEntry.ofUser username) = [(id, keyfile)] := by
    induction entries with
    | nil => cases hmem
    | cons e entries ih =>
      obtain ⟨hnotMem, hnodup'⟩ := List.nodup_cons.mp hnodup
      rcases List.mem_cons.mp hmem with rfl | hmem'
      · -- nobody behind it
        rw [List.filterMap_cons_some (ofUser_self huser)]
        refine congrArg _ (List.filterMap_eq_nil_iff.mpr fun e' he' => ?_)
        cases hfound : KeyEntry.ofUser username e' with
        | none => rfl
        | some found =>
          obtain ⟨hf, -, huser'⟩ := ofUser_eq_some.mp hfound
          have hmem'' : (e'.1, some found.2) ∈ entries := by
            rw [← hf]
            exact he'
          have hid := honly e'.1 found.2 (List.mem_cons_of_mem _ hmem'') huser'
          exact absurd (List.mem_map.mpr ⟨e', he', hid⟩) hnotMem
      · have hskip : KeyEntry.ofUser username e = none := by
          cases hfound : KeyEntry.ofUser username e with
          | none => rfl
          | some found =>
            obtain ⟨hf, -, huser'⟩ := ofUser_eq_some.mp hfound
            have hmem'' : (e.1, some found.2) ∈ e :: entries := by
              rw [← hf]
              exact List.mem_cons_self
            have hid := honly e.1 found.2 hmem'' huser'
            exact absurd (List.mem_map.mpr ⟨_, hmem', hid.symm⟩) hnotMem
        rw [List.filterMap_cons_none hskip]
        exact ih hnodup' hmem' fun id' keyfile' h => honly id' keyfile' (List.mem_cons_of_mem _ h)
  rw [loadKeyfileWithUsername, hlist]

/-- The keyfile that is found for a user is one of those that were read, and his. -/
theorem mem_of_loadKeyfileWithUsername
    (h : loadKeyfileWithUsername username entries = .ok (some (id, keyfile))) :
    (id, some keyfile) ∈ entries ∧ keyfile.username = username := by
  unfold loadKeyfileWithUsername at h
  split at h
  · cases h
  · rename_i found hfound
    cases h
    have hin : (id, keyfile) ∈ entries.filterMap (KeyEntry.ofUser username) := by
      rw [hfound]
      exact List.mem_singleton_self _
    obtain ⟨⟨id', f⟩, hmem, huser⟩ := List.mem_filterMap.mp hin
    obtain ⟨rfl, rfl, huser'⟩ := ofUser_eq_some.mp huser
    exact ⟨hmem, huser'⟩
  · cases h

end Manager

/-! ## The commands -/

/-- `key add` and `key change-password`, with what they are asked to do. -/
inductive KeyCommand where
  | add (auth newAuth : Auth) (outputKeyfilePath : Bool)
  | passwordChange (auth : Auth) (newPassword : String)

/-- The user and the password of the keyfile that the command generates. -/
def KeyCommand.newAuth : KeyCommand → Auth
  | .add _ newAuth _ => newAuth
  | .passwordChange auth newPassword => ⟨auth.username, newPassword⟩

/-- Where a command stands. -/
inductive KeyPhase where
  | idle
  /-- `retrieve_master_key` goes through the keyfiles. -/
  | retrieving (todo : List ID)
  /-- `load_keyfile_with_username` goes through the keyfiles. -/
  | loading (todo : List ID) (entries : List KeyEntry)
  /-- It has the master key, and a change-password has the ID of the old keyfile. -/
  | keyed (masterKey : Bytes) (old : Option ID)
  /-- A change-password has saved the new keyfile. -/
  | saved (old : ID)
  | ended (ok : Bool)

/-- The directory of the keyfiles and the commands. `ever` has every file that was there at some
time, and `latest` the keyfile that was saved last for a user, with its password; neither is there
in the code. -/
structure KeyDir (ι : Type) where
  keys : Table ID (Option KeyFile)
  ever : ID → Option (Option KeyFile)
  latest : String → Option (ID × String)
  phases : ι → KeyPhase

/-- What a step does. -/
inductive KeyLabel (ι : Type) where
  /-- `key add` opens a keyfile that is given by its path. -/
  | openFile (keyfile : KeyFile)
  | save (t : ι)
  | stop (t : ι)
  | other

namespace KeyDir

variable {ι : Type}

/-- A directory before any command. -/
def start (keys : Table ID (Option KeyFile)) (latest : String → Option (ID × String)) : KeyDir ι :=
  ⟨keys, fun id => keys.lookup id, latest, fun _ => .idle⟩

/-- What the stream gives for a path: an error, when the file is gone, counts as no keyfile. -/
def entry (s : KeyDir ι) (id : ID) : KeyEntry := (id, (s.keys.lookup id).join)

/-- Save a keyfile. -/
def save (s : KeyDir ι) (id : ID) (keyfile : KeyFile) (password : String) : KeyDir ι :=
  { s with
    keys := s.keys.insert id (some keyfile)
    ever := Function.update s.ever id (some (some keyfile))
    latest := Function.update s.latest keyfile.username (some (id, password)) }

section Steps

variable [DecidableEq ι]

def setPhase (s : KeyDir ι) (t : ι) (phase : KeyPhase) : KeyDir ι :=
  { s with phases := Function.update s.phases t phase }

/-- A step of one command. A keyfile is saved under an ID that no file has had, since it is the hash
of data with a random salt. -/
inductive Step (crypto : KeyCrypto) (cmd : ι → KeyCommand) :
    KeyDir ι → KeyLabel ι → KeyDir ι → Prop where
  -- `run_add`
  | list {s : KeyDir ι} {t : ι} {auth newAuth : Auth} {o : Bool} {todo : List ID} :
      s.phases t = .idle → cmd t = .add auth newAuth o →
      todo.Perm (Table.toList s.keys |>.map Prod.fst) →
      Step crypto cmd s .other (s.setPhase t (.retrieving todo))
  | openFile {s : KeyDir ι} {t : ι} {auth newAuth : Auth} {o : Bool} {keyfile : KeyFile} {k : Bytes} :
      s.phases t = .idle → cmd t = .add auth newAuth o →
      keyfile.username = auth.username → decodeMasterKey crypto auth.password keyfile = some k →
      Step crypto cmd s (.openFile keyfile) (s.setPhase t (.keyed k none))
  | retrieve {s : KeyDir ι} {t : ι} {auth newAuth : Auth} {o : Bool} {id : ID} {todo : List ID} :
      s.phases t = .retrieving (id :: todo) → cmd t = .add auth newAuth o →
      Step crypto cmd s .other (s.setPhase t
        (match KeyEntry.opens crypto auth (s.entry id) with
          | some found => .keyed found.2 none
          | none => .retrieving todo))
  | retrieveNone {s : KeyDir ι} {t : ι} : s.phases t = .retrieving [] →
      Step crypto cmd s .other (s.setPhase t (.ended false))
  | addKey {s : KeyDir ι} {t : ι} {auth newAuth : Auth} {k x : Bytes} {n : Nonce} {f : KeyFile}
      {i : ID} :
      s.phases t = .keyed k none → cmd t = .add auth newAuth false →
      generateKeyFile crypto x n newAuth k = some f → s.ever i = none →
      Step crypto cmd s (.save t)
        ((s.save i f newAuth.password).setPhase t (.ended true))
  | addToPath {s : KeyDir ι} {t : ι} {auth newAuth : Auth} {k : Bytes} :
      s.phases t = .keyed k none → cmd t = .add auth newAuth true →
      Step crypto cmd s .other (s.setPhase t (.ended true))
  -- `run_password_change`
  | listUser {s : KeyDir ι} {t : ι} {auth : Auth} {w : String} {todo : List ID} :
      s.phases t = .idle → cmd t = .passwordChange auth w →
      todo.Perm (Table.toList s.keys |>.map Prod.fst) →
      Step crypto cmd s .other (s.setPhase t (.loading todo []))
  | load {s : KeyDir ι} {t : ι} {id : ID} {todo : List ID} {entries : List KeyEntry} :
      s.phases t = .loading (id :: todo) entries →
      Step crypto cmd s .other (s.setPhase t (.loading todo (entries ++ [s.entry id])))
  | decode {s : KeyDir ι} {t : ι} {auth : Auth} {w : String} {entries : List KeyEntry} {old : ID}
      {keyfile : KeyFile} {k : Bytes} :
      s.phases t = .loading [] entries → cmd t = .passwordChange auth w →
      loadKeyfileWithUsername auth.username entries = .ok (some (old, keyfile)) →
      decodeMasterKey crypto auth.password keyfile = some k →
      Step crypto cmd s .other (s.setPhase t (.keyed k (some old)))
  | changeKey {s : KeyDir ι} {t : ι} {auth : Auth} {w : String} {k x : Bytes} {n : Nonce} {f : KeyFile}
      {old i : ID} :
      s.phases t = .keyed k (some old) → cmd t = .passwordChange auth w →
      generateKeyFile crypto x n ⟨auth.username, w⟩ k = some f → s.ever i = none →
      Step crypto cmd s (.save t) ((s.save i f w).setPhase t (.saved old))
  | deleteOld {s : KeyDir ι} {t : ι} {old : ID} : s.phases t = .saved old →
      Step crypto cmd s .other
        ({ s with keys := s.keys.erase old }.setPhase t (.ended true))
  /-- A command fails, in a check or in an operation, or is stopped. -/
  | stop {s : KeyDir ι} {t : ι} :
      Step crypto cmd s (.stop t) (s.setPhase t (.ended false))

end Steps

/-- A keyfile that is given by its path is one of this repository. -/
def OwnKeyfile (crypto : KeyCrypto) (masterKey : Bytes) (l : KeyLabel ι) : Prop :=
  ∀ keyfile, l = .openFile keyfile → Seals crypto masterKey keyfile

/-- The condition on a step: no keyfile of another repository is opened, a keyfile is saved while its
user has none but the one to be replaced, and a change-password does not stop between the new keyfile
and the deletion of the old one. -/
structure Orderly (crypto : KeyCrypto) (masterKey : Bytes) (cmd : ι → KeyCommand) (s : KeyDir ι)
    (l : KeyLabel ι) : Prop where
  own : OwnKeyfile crypto masterKey l
  save : ∀ t k old, l = .save t → s.phases t = .keyed k old → ∀ id keyfile,
    s.keys.lookup id = some (some keyfile) → keyfile.username = (cmd t).newAuth.username →
    old = some id
  stop : ∀ t old, l = .stop t → s.phases t ≠ .saved old

/-- A directory in which every user has one keyfile, of which somebody knows the password. -/
structure OneEach (crypto : KeyCrypto) (masterKey : Bytes) (keys : Table ID (Option KeyFile))
    (latest : String → Option (ID × String)) : Prop where
  seals : ∀ id keyfile, keys.lookup id = some (some keyfile) → Seals crypto masterKey keyfile
  known : ∀ u id w, latest u = some (id, w) → ∃ keyfile, keys.lookup id = some (some keyfile) ∧
    keyfile.username = u ∧ decodeMasterKey crypto w keyfile = some masterKey
  only : ∀ id keyfile, keys.lookup id = some (some keyfile) →
    ∃ w, latest keyfile.username = some (id, w)

/-! ### Every run -/

section Invariant

variable {crypto : KeyCrypto} {masterKey : Bytes} {cmd : ι → KeyCommand} {s s' : KeyDir ι}
  {l : KeyLabel ι} {t : ι} {keys : Table ID (Option KeyFile)}
  {latest : String → Option (ID × String)}

/-- A keyfile of the user was there under the ID. -/
def Was (s : KeyDir ι) (username : String) (id : ID) : Prop :=
  ∃ keyfile, s.ever id = some (some keyfile) ∧ keyfile.username = username

/-- What a command knows. One that has saved its keyfile will delete another one than those that
were saved last. -/
def Knows (masterKey : Bytes) (auth : Auth) (s : KeyDir ι) : KeyPhase → Prop
  | .loading _ entries => ∀ id keyfile, (id, some keyfile) ∈ entries →
      s.ever id = some (some keyfile)
  | .keyed k old => k = masterKey ∧ ∀ id, old = some id → Was s auth.username id
  | .saved old => Was s auth.username old ∧ ∀ u id w, s.latest u = some (id, w) → id ≠ old
  | _ => True

/-- The passwords that may be in use. -/
def Chosen (latest : String → Option (ID × String)) (cmd : ι → KeyCommand) (u w : String) : Prop :=
  (∃ id, latest u = some (id, w)) ∨ ∃ t, (cmd t).newAuth = ⟨u, w⟩

/-- What every step keeps. -/
structure Safe (crypto : KeyCrypto) (masterKey : Bytes) (cmd : ι → KeyCommand)
    (latest : String → Option (ID × String)) (s : KeyDir ι) : Prop where
  ever : ∀ id f, s.keys.lookup id = some f → s.ever id = some f
  seals : ∀ id keyfile, s.ever id = some (some keyfile) → Seals crypto masterKey keyfile
  known : ∀ u id w, s.latest u = some (id, w) → Chosen latest cmd u w ∧
    ∃ keyfile, s.keys.lookup id = some (some keyfile) ∧ keyfile.username = u ∧
      decodeMasterKey crypto w keyfile = some masterKey
  users : ∀ u, latest u ≠ none → s.latest u ≠ none
  phases : ∀ t, Knows masterKey (cmd t).newAuth s (s.phases t)

theorem Safe.start (h : OneEach crypto masterKey keys latest) :
    Safe crypto masterKey cmd latest (start keys latest) where
  ever := fun _ _ h => h
  seals := h.seals
  known := fun u id w hu => ⟨Or.inl ⟨id, hu⟩, h.known u id w hu⟩
  users := fun _ h => h
  phases := fun _ => trivial

/-- Deleting a keyfile that is not the latest one of any user. -/
theorem Safe.erase (h : Safe crypto masterKey cmd latest s) {old : ID}
    (hold : ∀ u id w, s.latest u = some (id, w) → id ≠ old) :
    Safe crypto masterKey cmd latest { s with keys := s.keys.erase old } := by
  have herase : ∀ id f, (s.keys.erase old).lookup id = some f → s.keys.lookup id = some f := by
    intro id f hf
    rw [Table.lookup_erase_eq_ite] at hf
    split at hf
    · cases hf
    · exact hf
  refine ⟨fun id f hf => h.ever id f (herase id f hf), h.seals, fun u id w hu => ?_, h.users, h.phases⟩
  obtain ⟨hchosen, keyfile, hlookup, hrest⟩ := h.known u id w hu
  refine ⟨hchosen, keyfile, ?_, hrest⟩
  show (s.keys.erase old).lookup id = _
  rw [Table.lookup_erase_eq_ite, if_neg (hold u id w hu), hlookup]

variable [DecidableEq ι]

/-- A command moves, and the directory stays. -/
theorem Safe.setPhase (h : Safe crypto masterKey cmd latest s) {phase : KeyPhase}
    (hphase : Knows masterKey (cmd t).newAuth s phase) :
    Safe crypto masterKey cmd latest (s.setPhase t phase) where
  ever := h.ever
  seals := h.seals
  known := h.known
  users := h.users
  phases := by
    intro u
    show Knows masterKey (cmd u).newAuth s (Function.update s.phases t phase u)
    by_cases hu : u = t
    · rw [hu, Function.update_self]
      exact hphase
    · rw [Function.update_of_ne hu]
      exact h.phases u

omit [DecidableEq ι] in
theorem Was.ne_fresh {id id' : ID} {u : String} (h : Was s u id') (hfresh : s.ever id = none) :
    id' ≠ id := by
  obtain ⟨old, hold, -⟩ := h
  rintro rfl
  rw [hfresh] at hold
  cases hold

omit [DecidableEq ι] in
theorem Was.save {id id' : ID} {keyfile : KeyFile} {w u : String} (h : Was s u id')
    (hfresh : s.ever id = none) : Was (s.save id keyfile w) u id' := by
  have hne := h.ne_fresh hfresh
  obtain ⟨old, hold, huser⟩ := h
  exact ⟨old, (Function.update_of_ne hne _ _).trans hold, huser⟩

/-- A keyfile is saved under a fresh ID. -/
theorem Safe.save (h : Safe crypto masterKey cmd latest s) {id : ID} {keyfile : KeyFile}
    {phase : KeyPhase} (hfresh : s.ever id = none)
    (huser : keyfile.username = (cmd t).newAuth.username)
    (hdecode : decodeMasterKey crypto (cmd t).newAuth.password keyfile = some masterKey)
    (hseals : Seals crypto masterKey keyfile)
    (hphase : Knows masterKey (cmd t).newAuth (s.save id keyfile (cmd t).newAuth.password) phase) :
    Safe crypto masterKey cmd latest
      ((s.save id keyfile (cmd t).newAuth.password).setPhase t phase) := by
  have hgone : s.keys.lookup id = none := by
    cases hlookup : s.keys.lookup id with
    | none => rfl
    | some f =>
      rw [h.ever id f hlookup] at hfresh
      cases hfresh
  refine Safe.setPhase ⟨fun id' f hf => ?_, fun id' f hf => ?_, fun u id' w hu => ?_, fun u hu => ?_,
    fun t' => ?_⟩ hphase
  · have hf : (s.keys.insert id (some keyfile)).lookup id' = some f := hf
    show Function.update s.ever id _ id' = some f
    rw [Table.lookup_insert_eq_ite] at hf
    by_cases heq : id' = id
    · rw [if_pos heq] at hf
      rw [heq, Function.update_self, hf]
    · rw [if_neg heq] at hf
      rw [Function.update_of_ne heq]
      exact h.ever id' f hf
  · have hf : Function.update s.ever id (some (some keyfile)) id' = some (some f) := hf
    by_cases heq : id' = id
    · rw [heq, Function.update_self] at hf
      cases hf
      exact hseals
    · rw [Function.update_of_ne heq] at hf
      exact h.seals id' f hf
  · have hu : Function.update s.latest keyfile.username
        (some (id, (cmd t).newAuth.password)) u = some (id', w) := hu
    show _ ∧ ∃ keyfile', (s.keys.insert id (some keyfile)).lookup id' = _ ∧ _
    by_cases heq : u = keyfile.username
    · rw [heq, Function.update_self] at hu
      cases hu
      refine ⟨Or.inr ⟨t, ?_⟩, keyfile, AList.lookup_insert _, heq.symm, hdecode⟩
      rw [heq, huser]
    · rw [Function.update_of_ne heq] at hu
      obtain ⟨hchosen, keyfile', hlookup, hrest⟩ := h.known u id' w hu
      refine ⟨hchosen, keyfile', ?_, hrest⟩
      rw [Table.lookup_insert_eq_ite, if_neg ?_, hlookup]
      rintro rfl
      rw [hgone] at hlookup
      cases hlookup
  · show Function.update s.latest keyfile.username _ u ≠ none
    by_cases heq : u = keyfile.username
    · rw [heq, Function.update_self]
      exact Option.some_ne_none _
    · rw [Function.update_of_ne heq]
      exact h.users u hu
  · -- the other commands know what they knew
    have hold := h.phases t'
    show Knows masterKey (cmd t').newAuth _ (s.phases t')
    cases hp : s.phases t' with
    | loading todo entries =>
      rw [hp] at hold
      intro id' f hmem
      have hever := hold id' f hmem
      have hne : id' ≠ id := by
        rintro rfl
        rw [hfresh] at hever
        cases hever
      exact (Function.update_of_ne hne _ _).trans hever
    | keyed k old =>
      rw [hp] at hold
      exact ⟨hold.1, fun id' hid => (hold.2 id' hid).save hfresh⟩
    | saved old =>
      rw [hp] at hold
      refine ⟨hold.1.save hfresh, fun u id' w hu => ?_⟩
      have hu : Function.update s.latest keyfile.username
          (some (id, (cmd t).newAuth.password)) u = some (id', w) := hu
      by_cases heq : u = keyfile.username
      · rw [heq, Function.update_self] at hu
        cases hu
        exact Ne.symm (hold.1.ne_fresh hfresh)
      · rw [Function.update_of_ne heq] at hu
        exact hold.2 u id' w hu
    | _ => trivial

/-- **One step.** -/
theorem Safe.step (h : Safe crypto masterKey cmd latest s) (hstep : Step crypto cmd s l s')
    (hown : OwnKeyfile crypto masterKey l) : Safe crypto masterKey cmd latest s' := by
  have hentry : ∀ {id : ID} {keyfile : KeyFile}, (s.entry id).2 = some keyfile →
      s.ever id = some (some keyfile) := by
    intro id keyfile hf
    exact h.ever id _ (Option.join_eq_some_iff.mp hf)
  cases hstep with
  | list _ _ _ => exact h.setPhase trivial
  | openFile _ _ _ hdecode =>
    exact h.setPhase ⟨(hown _ rfl).decode_eq hdecode, nofun⟩
  | @retrieve t auth newAuth o id todo ht hcmd =>
    refine h.setPhase ?_
    cases hopens : KeyEntry.opens crypto auth (s.entry id) with
    | none => trivial
    | some found =>
      obtain ⟨⟨id', keyfile⟩, huser, hmap⟩ := Option.bind_eq_some_iff.mp hopens
      obtain ⟨k, hdecode, rfl⟩ := Option.map_eq_some_iff.mp hmap
      obtain ⟨hf, -, -⟩ := ofUser_eq_some.mp huser
      exact ⟨(h.seals id keyfile (hentry hf)).decode_eq hdecode, nofun⟩
  | retrieveNone _ => exact h.setPhase trivial
  | @addKey t auth newAuth k salt nonce keyfile id ht hcmd hgen hfresh =>
    have hk := h.phases t
    rw [ht] at hk
    obtain ⟨rfl, -⟩ := hk
    obtain ⟨huser, hdecode, hseals⟩ := generateKeyFile_spec hgen
    have hnew : (cmd t).newAuth = newAuth := by rw [hcmd]; rfl
    rw [← hnew] at huser hdecode ⊢
    exact h.save hfresh huser hdecode hseals trivial
  | addToPath _ _ => exact h.setPhase trivial
  | listUser _ _ _ => exact h.setPhase nofun
  | @load t id todo entries ht =>
    have hk := h.phases t
    rw [ht] at hk
    refine h.setPhase fun id' keyfile hmem => ?_
    rcases List.mem_append.mp hmem with hold | hnew
    · exact hk id' keyfile hold
    · have heq := List.mem_singleton.mp hnew
      have hid : id' = id := congrArg Prod.fst heq
      rw [hid]
      exact hentry (congrArg Prod.snd heq).symm
  | @decode t auth w entries old keyfile k ht hcmd hload hdecode =>
    have hk := h.phases t
    rw [ht] at hk
    have hmem := mem_of_loadKeyfileWithUsername hload
    have hever := hk old keyfile hmem.1
    refine h.setPhase ⟨(h.seals old keyfile hever).decode_eq hdecode, ?_⟩
    rintro _ ⟨⟩
    refine ⟨keyfile, hever, ?_⟩
    rw [hcmd, hmem.2]
    rfl
  | @changeKey t auth w k salt nonce keyfile old id ht hcmd hgen hfresh =>
    have hk := h.phases t
    rw [ht] at hk
    obtain ⟨rfl, hwas⟩ := hk
    obtain ⟨huser, hdecode, hseals⟩ := generateKeyFile_spec hgen
    have hnew : (cmd t).newAuth = ⟨auth.username, w⟩ := by rw [hcmd]; rfl
    have hpass : w = (cmd t).newAuth.password := by rw [hnew]
    rw [← hnew] at huser hdecode
    rw [hpass]
    refine h.save hfresh huser hdecode hseals ⟨(hwas old rfl).save hfresh, fun u id' w' hu => ?_⟩
    have hu : Function.update s.latest keyfile.username
        (some (id, (cmd t).newAuth.password)) u = some (id', w') := hu
    by_cases heq : u = keyfile.username
    · rw [heq, Function.update_self] at hu
      cases hu
      exact Ne.symm ((hwas old rfl).ne_fresh hfresh)
    · -- the keyfile of another user
      rw [Function.update_of_ne heq] at hu
      rintro rfl
      obtain ⟨-, keyfile', hlookup, huser', -⟩ := h.known u id' w' hu
      obtain ⟨keyfile'', hever, huser''⟩ := hwas id' rfl
      rw [h.ever id' _ hlookup] at hever
      cases hever
      rw [huser'] at huser''
      rw [huser, ← huser''] at heq
      exact heq rfl
  | @deleteOld t old ht =>
    have hk := h.phases t
    rw [ht] at hk
    exact (h.erase hk.2).setPhase trivial
  | stop => exact h.setPhase trivial

/-- A keyfile is the one that was saved last for its user, or somebody is about to delete it. -/
def Settled (cmd : ι → KeyCommand) (s : KeyDir ι) : Prop :=
  ∀ id keyfile, s.keys.lookup id = some (some keyfile) →
    (∃ w, s.latest keyfile.username = some (id, w)) ∨
      ∃ t, s.phases t = .saved id ∧ (cmd t).newAuth.username = keyfile.username

/-- A command moves that is not about to delete a keyfile. -/
theorem Settled.setPhase (h : Settled cmd s) {phase : KeyPhase} (ht : ∀ old, s.phases t ≠ .saved old) :
    Settled cmd (s.setPhase t phase) := by
  intro id keyfile hlookup
  refine (h id keyfile hlookup).imp_right fun ⟨t', ht', huser⟩ => ⟨t', ?_, huser⟩
  have hne : t' ≠ t := by
    rintro rfl
    exact ht id ht'
  exact (Function.update_of_ne hne _ _).trans ht'

/-- A keyfile is saved, and the user has none but the one that will be deleted. -/
theorem Settled.save (h : Settled cmd s) {k : Bytes} {old : Option ID} {id : ID} {keyfile : KeyFile}
    {phase : KeyPhase} {w : String} (ht : s.phases t = .keyed k old)
    (huser : keyfile.username = (cmd t).newAuth.username)
    (hphase : ∀ id, old = some id → phase = .saved id)
    (honly : ∀ id keyfile, s.keys.lookup id = some (some keyfile) →
      keyfile.username = (cmd t).newAuth.username → old = some id) :
    Settled cmd ((s.save id keyfile w).setPhase t phase) := by
  intro id' keyfile' hlookup
  have hlookup : (s.keys.insert id (some keyfile)).lookup id' = some (some keyfile') := hlookup
  show (∃ w', Function.update s.latest keyfile.username (some (id, w)) keyfile'.username =
    some (id', w')) ∨ ∃ t', Function.update s.phases t phase t' = .saved id' ∧ _
  rw [Table.lookup_insert_eq_ite] at hlookup
  by_cases heq : id' = id
  · rw [if_pos heq] at hlookup
    cases hlookup
    rw [heq, Function.update_self]
    exact Or.inl ⟨w, rfl⟩
  · rw [if_neg heq] at hlookup
    by_cases hsame : keyfile'.username = keyfile.username
    · -- the old keyfile of the user
      have hold := honly id' keyfile' hlookup (hsame.trans huser)
      refine Or.inr ⟨t, ?_, (hsame.trans huser).symm⟩
      rw [Function.update_self]
      exact hphase id' hold
    · rw [Function.update_of_ne hsame]
      refine (h id' keyfile' hlookup).imp_right fun ⟨t', ht', huser'⟩ => ⟨t', ?_, huser'⟩
      have hne : t' ≠ t := by
        rintro rfl
        rw [ht] at ht'
        cases ht'
      rw [Function.update_of_ne hne, ht']

theorem Settled.step (h : Settled cmd s) (hstep : Step crypto cmd s l s')
    (hok : Orderly crypto masterKey cmd s l) : Settled cmd s' := by
  have hno : ∀ {t : ι} {phase : KeyPhase}, s.phases t = phase → (∀ old, phase ≠ .saved old) →
      ∀ old, s.phases t ≠ .saved old := by
    rintro t _ rfl hne
    exact hne
  cases hstep with
  | list ht _ _ | openFile ht _ _ _ | retrieve ht _ | retrieveNone ht | addToPath ht _
  | listUser ht _ _ | load ht | decode ht _ _ _ => exact h.setPhase (hno ht nofun)
  | @addKey t auth newAuth k salt nonce keyfile id ht hcmd hgen _ =>
    have hnew : (cmd t).newAuth = newAuth := by rw [hcmd]; rfl
    have huser := (generateKeyFile_spec hgen).1
    rw [← hnew] at huser
    exact h.save ht huser nofun (hok.save t k none rfl ht)
  | @changeKey t auth w k salt nonce keyfile old id ht hcmd hgen _ =>
    have hnew : (cmd t).newAuth = ⟨auth.username, w⟩ := by rw [hcmd]; rfl
    have huser := (generateKeyFile_spec hgen).1
    rw [← hnew] at huser
    refine h.save ht huser ?_ (hok.save t k (some old) rfl ht)
    rintro _ ⟨⟩
    rfl
  | @deleteOld t old ht =>
    intro id keyfile hlookup
    have hlookup : (s.keys.erase old).lookup id = some (some keyfile) := hlookup
    rw [Table.lookup_erase_eq_ite] at hlookup
    split at hlookup
    · cases hlookup
    · rename_i hne
      refine (h id keyfile hlookup).imp_right fun ⟨t', ht', huser⟩ => ⟨t', ?_, huser⟩
      have hne' : t' ≠ t := by
        rintro rfl
        rw [ht] at ht'
        cases ht'
        exact hne rfl
      exact (Function.update_of_ne hne' _ _).trans ht'
  | @stop t => exact h.setPhase fun old => hok.stop t old rfl

omit [DecidableEq ι] in
theorem nodup_toList (m : Table ID (Option KeyFile)) : ((Table.toList m).map Prod.fst).Nodup := by
  have hkeys := m.nodupKeys
  rw [Table.toList, List.map_map]
  exact hkeys

/-- **Passwords stay valid.** In every run in which no keyfile of another repository is opened, each
user gets the master key with the password of the keyfile that was saved for him last, which is his
first one or one of those his commands have chosen. In a run whose steps all meet the condition, a
user whose keyfile is not just being replaced has exactly this one, so `load_keyfile_with_username`
returns it. -/
theorem passwords_stay_valid (h : OneEach crypto masterKey keys latest) {ls : List (KeyLabel ι)}
    {entries : List KeyEntry} (hentries : entries.Perm (Table.toList s.keys)) :
    (Run (Guarded (Step crypto cmd) fun _ => OwnKeyfile crypto masterKey) (start keys latest) ls s →
      (∀ u, latest u ≠ none → s.latest u ≠ none) ∧
      ∀ u id w, s.latest u = some (id, w) → Chosen latest cmd u w ∧
        ∃ id', retrieveMasterKey crypto ⟨u, w⟩ entries = .ok (id', masterKey)) ∧
    (Run (Guarded (Step crypto cmd) (Orderly crypto masterKey cmd)) (start keys latest) ls s →
      ∀ u id w, s.latest u = some (id, w) →
        (∀ t old, s.phases t = .saved old → (cmd t).newAuth.username ≠ u) →
        ∃ keyfile, loadKeyfileWithUsername u entries = .ok (some (id, keyfile)) ∧
          decodeMasterKey crypto w keyfile = some masterKey) := by
  have hmem : ∀ {id f}, (id, f) ∈ entries ↔ s.keys.lookup id = some f :=
    fun {_ _} => hentries.mem_iff.trans Table.mem_toList
  have hsafe : Run (Guarded (Step crypto cmd) fun _ => OwnKeyfile crypto masterKey)
      (start keys latest) ls s → Safe crypto masterKey cmd latest s := fun hrun =>
    hrun.invariant (P := Safe crypto masterKey cmd latest)
      (fun _ _ _ hs hstep => hs.step hstep.1 hstep.2) (Safe.start h)
  refine ⟨fun hrun => ?_, fun hrun u id w hu hidle => ?_⟩
  · have hs := hsafe hrun
    refine ⟨hs.users, fun u id w hu => ?_⟩
    obtain ⟨hchosen, keyfile, hlookup, huser, hdecode⟩ := hs.known u id w hu
    exact ⟨hchosen, retrieveMasterKey_of_mem
      (fun id' keyfile' h' => hs.seals id' keyfile' (hs.ever id' _ (hmem.mp h')))
      (hmem.mpr hlookup) huser hdecode⟩
  · have hs := hsafe (hrun.mono fun _ _ _ hstep => ⟨hstep.1, hstep.2.own⟩)
    have hsettled : Settled cmd s := by
      refine hrun.invariant (P := Settled cmd) (fun _ _ _ hs hstep => hs.step hstep.1 hstep.2) ?_
      exact fun id keyfile hlookup => Or.inl (h.only id keyfile hlookup)
    obtain ⟨-, keyfile, hlookup, huser, hdecode⟩ := hs.known u id w hu
    refine ⟨keyfile, loadKeyfileWithUsername_of_unique ?_ (hmem.mpr hlookup) huser ?_, hdecode⟩
    · exact (hentries.map Prod.fst).nodup_iff.mpr (nodup_toList s.keys)
    · intro id' keyfile' hmem' huser'
      rcases hsettled id' keyfile' (hmem.mp hmem') with ⟨w', hlatest⟩ | ⟨t, ht, hcmd⟩
      · rw [huser', hu] at hlatest
        cases hlatest
        rfl
      · exact absurd (hcmd.trans huser') (hidle t id' ht)

end Invariant

/-! ### A change-password that stops -/

/-- Keys are derived from two passwords. -/
def sampleCrypto : KeyCrypto where
  defaultParams := ⟨19456, 2, 1⟩
  deriveKey := fun w _ _ => some (if w = "old" then [1] else [2])
  storage := keyedStorage
  authentic := authentic_keyedStorage

/-- The nonce of the samples. -/
def zeroNonce : Nonce := ⟨List.replicate nonceLen 0, rfl⟩

/-- The keyfile of the user `u` with a key derived from the password. -/
def sampleKeyFile (key : Bytes) : KeyFile :=
  { username := "u", params := ⟨19456, 2, 1⟩, salt := []
    encryptedKey := zeroNonce.val ++ [7] ++ keyTag key }

/-- One keyfile, with the password `old`. -/
def sampleKeys : Table ID (Option KeyFile) := (∅ : Table ID _).insert 1 (some (sampleKeyFile [1]))

/-- Its user. -/
def sampleLatest : String → Option (ID × String) := fun u => if u = "u" then some (1, "old") else none

/-- The command changes the password to `new`. -/
def sampleChange : Unit → KeyCommand := fun _ => .passwordChange ⟨"u", "old"⟩ "new"

theorem oneEach_sampleKeys : OneEach sampleCrypto [7] sampleKeys sampleLatest := by
  have hlookup : ∀ id keyfile, sampleKeys.lookup id = some (some keyfile) →
      id = 1 ∧ keyfile = sampleKeyFile [1] := by
    intro id keyfile h
    rw [sampleKeys, Table.lookup_insert_eq_ite] at h
    split at h
    · cases h
      exact ⟨by assumption, rfl⟩
    · cases h
  refine ⟨fun id keyfile h => ?_, fun u id w h => ?_, fun id keyfile h => ?_⟩
  · obtain ⟨-, rfl⟩ := hlookup id keyfile h
    exact ⟨[1], zeroNonce, rfl⟩
  · unfold sampleLatest at h
    split at h
    · rename_i huser
      cases h
      exact ⟨sampleKeyFile [1], AList.lookup_insert _, huser.symm, rfl⟩
    · cases h
  · obtain ⟨rfl, rfl⟩ := hlookup id keyfile h
    exact ⟨"old", rfl⟩

/-- The new keyfile beside the old one. -/
def changedKeys : Table ID (Option KeyFile) := sampleKeys.insert 2 (some (sampleKeyFile [2]))

/-- The command has saved the new keyfile and not yet deleted the old one. -/
theorem run_sampleChange :
    ∃ (s : KeyDir Unit) (ls : List (KeyLabel Unit)),
      Run (Guarded (Step sampleCrypto sampleChange) (Orderly sampleCrypto [7] sampleChange))
        (start sampleKeys sampleLatest) ls s ∧ s.phases () = .saved 1 ∧
        s.keys = changedKeys ∧
        s.latest "u" = some (2, "new") := by
  have hother : ∀ s : KeyDir Unit, Orderly sampleCrypto [7] sampleChange s .other :=
    fun _ => ⟨nofun, nofun, nofun⟩
  refine ⟨_, _, (((Run.nil.snoc ⟨.listUser (t := ()) rfl rfl (List.Perm.refl _), hother _⟩).snoc
    ⟨.load (t := ()) rfl, hother _⟩).snoc
    ⟨.decode (t := ()) (k := [7]) rfl rfl rfl rfl, hother _⟩).snoc
    ⟨.changeKey (t := ()) (x := []) (n := zeroNonce) (i := 2) rfl rfl rfl rfl, nofun, ?_, nofun⟩,
    rfl, rfl, rfl⟩
  rintro _ k old - ht id keyfile hlookup -
  cases ht
  have hlookup : sampleKeys.lookup id = some (some keyfile) := hlookup
  rw [sampleKeys, Table.lookup_insert_eq_ite] at hlookup
  split at hlookup
  · rename_i heq
    rw [heq]
    rfl
  · cases hlookup

/-- The user has the new password and one keyfile when the command is done. -/
theorem sampleChange_done :
    ∃ (s : KeyDir Unit) (ls : List (KeyLabel Unit)),
      Run (Guarded (Step sampleCrypto sampleChange) (Orderly sampleCrypto [7] sampleChange))
        (start sampleKeys sampleLatest) ls s ∧ s.latest "u" = some (2, "new") ∧
        (∃ id, retrieveMasterKey sampleCrypto ⟨"u", "new"⟩ (Table.toList s.keys) = .ok (id, [7])) ∧
        ∃ keyfile, loadKeyfileWithUsername "u" (Table.toList s.keys) = .ok (some (2, keyfile)) ∧
          decodeMasterKey sampleCrypto "new" keyfile = some [7] := by
  obtain ⟨s, ls, hrun, hphase, -, hlatest⟩ := run_sampleChange
  obtain ⟨s', ls', hrun', hphase', hlatest'⟩ : ∃ (s' : KeyDir Unit) (ls' : List (KeyLabel Unit)),
      Run (Guarded (Step sampleCrypto sampleChange) (Orderly sampleCrypto [7] sampleChange))
        (start sampleKeys sampleLatest) ls' s' ∧ s'.phases () = .ended true ∧
        s'.latest "u" = some (2, "new") :=
    ⟨_, _, hrun.snoc ⟨.deleteOld hphase, nofun, nofun, nofun⟩, rfl, hlatest⟩
  have hown : Run (Guarded (Step sampleCrypto sampleChange) fun _ => OwnKeyfile sampleCrypto [7])
      (start sampleKeys sampleLatest) ls' s' := hrun'.mono fun _ _ _ hstep => ⟨hstep.1, hstep.2.own⟩
  have hperm := List.Perm.refl (Table.toList s'.keys)
  have hkey := ((passwords_stay_valid oneEach_sampleKeys hperm).1 hown).2 "u" 2 "new" hlatest'
  refine ⟨s', ls', hrun', hlatest', hkey.2,
    (passwords_stay_valid oneEach_sampleKeys hperm).2 hrun' "u" 2 "new" hlatest' fun t old ht => ?_⟩
  rw [hphase'] at ht
  cases ht

/-- **A change-password that stops blocks the next one.** It is stopped after it has saved the new
keyfile; the user then has two, and `load_keyfile_with_username` fails. -/
theorem stopped_change_blocks_next :
    ∃ (s : KeyDir Unit) (ls : List (KeyLabel Unit)),
      OneEach sampleCrypto [7] sampleKeys sampleLatest ∧
        Run (Step sampleCrypto sampleChange) (start sampleKeys sampleLatest) ls s ∧
        s.phases () = .ended false ∧
        loadKeyfileWithUsername "u" (Table.toList s.keys) =
          .error "more than one Keyfile found for username u" := by
  obtain ⟨s, ls, hrun, -, hkeys, -⟩ := run_sampleChange
  have hplain := hrun.mono fun _ _ _ hstep => hstep.1
  refine ⟨_, _, oneEach_sampleKeys, hplain.snoc (.stop (t := ())), rfl, ?_⟩
  show loadKeyfileWithUsername "u" (Table.toList s.keys) = _
  rw [hkeys]
  rfl

end KeyDir

end Mapache
