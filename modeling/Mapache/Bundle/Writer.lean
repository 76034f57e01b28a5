import Mathlib.Data.Finset.Insert
import Mapache.Bundle.Format
import Mapache.Lib.Run
import Mapache.Repository.Keys

/-!
# Writing a bundle

`BundleWriter` of `bundle/writer.rs`. A call of `save_blob` encodes its blob first; it then takes
the lock, looks whether its ID was seen, and otherwise writes the encoded blob at the end of the
file and appends an entry to the index. `finalize` writes the index, a manifest and the trailer
behind the blobs, each encrypted, and the length of the trailer last.

The calls of several threads are a system of two kinds of steps (`BundleWriter.Step`). `Laid` says
what the file and the index hold in every state: the blobs of the calls that were the first with
their ID, one after the other (`Laid.run`).
-/

set_option autoImplicit false

namespace Mapache

open Lib

/-! ## Keys and storages of bundles -/

/-- The libraries that a bundle is written with. An `argon2` parameter set that was in use can be
built again; what is encrypted gets longer by the nonce and the tag. -/
structure BundleCrypto where
  defaultParams : Argon2Params
  buildParams : Argon2Params → Option Argon2Params
  deriveKey : String → Bytes → Argon2Params → Option (FixedBytes 32)
  compress : Int → Bytes → Option Bytes
  decompress : Bytes → Option Bytes
  cipher : FixedBytes 32 → Cipher
  fits_default : defaultParams.m < 2 ^ 32 ∧ defaultParams.t < 2 ^ 32 ∧ defaultParams.p < 2 ^ 32
  build_default : buildParams defaultParams = some defaultParams
  compress_ne_nil : ∀ {level x y}, compress level x = some y → y ≠ []
  decompress_compress : ∀ {level x y}, compress level x = some y → decompress y = some x
  length_encrypt : ∀ {key n x c t}, (cipher key).encrypt n x = some (c, t) → c.length = x.length

/-- `SecureStorage::new` with a compression level and a key. -/
def BundleCrypto.storage (crypto : BundleCrypto) (level : Int) (key : FixedBytes 32) :
    SecureStorage where
  compress := crypto.compress level
  decompress := crypto.decompress
  cipher := some (crypto.cipher key)
  compress_ne_nil := crypto.compress_ne_nil
  decompress_compress := crypto.decompress_compress

section

variable {crypto : BundleCrypto} {level level' : Int} {key : FixedBytes 32} {nonce : Nonce}
  {x y : Bytes}

theorem BundleCrypto.length_sealPayload (h : (crypto.storage level key).sealPayload nonce x = some y) :
    y.length = x.length + (nonceLen + tagLen) := by
  have hmap : ((crypto.cipher key).encrypt nonce x).map
      (fun sealed => nonce.val ++ sealed.1 ++ sealed.2) = some y := h
  obtain ⟨⟨c, tag⟩, henc, rfl⟩ := Option.map_eq_some_iff.mp hmap
  have hc : c.length = x.length := crypto.length_encrypt henc
  have htag : tag.length = tagLen := (crypto.cipher key).length_tag henc
  have hnonce := nonce.property
  simp only [List.length_append, hc, htag, hnonce]
  omega

/-- What was encoded at one level is decoded at every other one. -/
theorem BundleCrypto.decode_encode (h : (crypto.storage level key).encode nonce x = some y) :
    (crypto.storage level' key).decode y = some x :=
  show (crypto.storage level key).decode y = some x from SecureStorage.decode_encode h

theorem BundleCrypto.decrypt_sealPayload
    (h : (crypto.storage level key).sealPayload nonce x = some y) :
    (crypto.storage level' key).decrypt y = some x :=
  show (crypto.storage level key).decrypt y = some x from SecureStorage.decrypt_sealPayload h

end

/-! ## The writer -/

/-- `Manifest`, with the time of its creation in seconds and nanoseconds. -/
structure Manifest where
  version : UInt32
  id : ID
  seconds : Int64
  nanos : UInt32

/-- `Manifest::to_binary`. -/
def Manifest.toBinary (m : Manifest) : Bytes :=
  let buf := putU32 [] m.version
  let buf := putBytes buf m.id.asSlice
  let buf := putI64 buf m.seconds
  putU32 buf m.nanos

/-- The arguments of a call of `save_blob`. -/
structure BundleBlob where
  blobType : BlobType
  data : Bytes
  saveId : SaveID

/-- A blob between its encoding and the lock. -/
structure EncodedBlob where
  id : ID
  blobType : BlobType
  data : Bytes
  encoded : Bytes

/-- `BundleWriterInner`. The file is written from its start to its end, so its position is its
length. -/
structure BundleWriterInner where
  file : Bytes
  index : BundleIndex
  seen : Finset ID

namespace BundleWriter

/-- `BundleWriter::new`, with the salt it draws: the storage and the file with its header. -/
def new (crypto : BundleCrypto) (password : String) (level : Int) (salt : FixedBytes 32) :
    Option (SecureStorage × BundleWriterInner) :=
  let params := crypto.defaultParams
  (crypto.deriveKey password salt.val params).map fun key =>
    let header : BundleHeader :=
      { magic := bundleMagicStart
        version := bundleVersion
        salt
        argon2T := UInt32.ofNat params.t
        argon2M := UInt32.ofNat params.m
        argon2P := UInt32.ofNat params.p }
    (crypto.storage level key, { file := header.toBinary, index := ⟨[]⟩, seen := ∅ })

/-- The part of `save_blob_internal` before the lock, with the nonce it draws. -/
def encodeBlob (storage : SecureStorage) (fromContent : Bytes → ID) (nonce : Nonce) (b : BundleBlob) :
    Option EncodedBlob :=
  let id := match b.saveId with
    | .calculateID => fromContent b.data
    | .withID id => id
  (storage.encode nonce b.data).map fun encoded => ⟨id, b.blobType, b.data, encoded⟩

/-- The entry of a blob that is written at an offset. The lengths are cut to 32 bits. -/
def entryAt (offset : Nat) (b : EncodedBlob) : BundleIndexEntry :=
  { id := b.id
    blobType := b.blobType
    offset := UInt64.ofNat offset
    length := UInt32.ofNat b.encoded.length
    rawLength := UInt32.ofNat b.data.length }

/-- The part of `save_blob_internal` under the lock. -/
def append (w : BundleWriterInner) (b : EncodedBlob) : BundleWriterInner :=
  if b.id ∈ w.seen then w
  else
    { file := w.file ++ b.encoded
      index := ⟨w.index.entries ++ [entryAt w.file.length b]⟩
      seen := insert b.id w.seen }

/-- What `finalize` draws: three nonces, and the ID and the time of the manifest. -/
structure FinalizeDraws where
  indexNonce : Nonce
  manifestNonce : Nonce
  trailerNonce : Nonce
  manifestId : ID
  seconds : Int64
  nanos : UInt32

/-- `BundleWriter::finalize`: the file afterwards. -/
def finalize (storage : SecureStorage) (draws : FinalizeDraws) (w : BundleWriterInner) (root : ID) :
    Option Bytes := do
  let indexOffset := w.file.length
  let encryptedIndex ← storage.sealPayload draws.indexNonce w.index.toBinary
  let file := w.file ++ encryptedIndex
  let manifestOffset := file.length
  let manifest : Manifest :=
    { version := bundleVersion.toUInt32, id := draws.manifestId, seconds := draws.seconds, nanos := draws.nanos }
  let encryptedManifest ← storage.sealPayload draws.manifestNonce manifest.toBinary
  let file := file ++ encryptedManifest
  let trailer : BundleTrailer :=
    { rootTree := root
      indexOffset := UInt64.ofNat indexOffset
      indexLen := UInt32.ofNat encryptedIndex.length
      manifestOffset := UInt64.ofNat manifestOffset
      manifestLen := UInt32.ofNat encryptedManifest.length
      magicEnd := bundleMagicEnd }
  let encryptedTrailer ← storage.sealPayload draws.trailerNonce trailer.toBinary
  return putU32 (file ++ encryptedTrailer) (UInt32.ofNat encryptedTrailer.length)

/-! ## Several threads -/

/-- A writer that is shared. `returned` has the blobs of the calls that got the lock, in that order;
it is not there in the code. -/
structure Shared (ι : Type*) where
  inner : BundleWriterInner
  pending : ι → Option EncodedBlob
  returned : List EncodedBlob

/-- What a thread does. -/
inductive Label (ι : Type*) where
  | encode (t : ι) (b : BundleBlob)
  | append (t : ι)

/-- The steps of the threads. A call whose blob cannot be encoded returns an error and changes
nothing. -/
inductive Step {ι : Type*} [DecidableEq ι] (storage : SecureStorage) (fromContent : Bytes → ID) :
    Shared ι → Label ι → Shared ι → Prop where
  | encode {s t b n e} : s.pending t = none →
      encodeBlob storage fromContent n b = some e →
      Step storage fromContent s (.encode t b) { s with pending := Function.update s.pending t (some e) }
  | encodeFails {s t b n} : s.pending t = none →
      encodeBlob storage fromContent n b = none → Step storage fromContent s (.encode t b) s
  | append {s t e} : s.pending t = some e →
      Step storage fromContent s (.append t)
        { inner := append s.inner e
          pending := Function.update s.pending t none
          returned := s.returned ++ [e] }

/-- No call has been made. -/
def start {ι : Type*} (w : BundleWriterInner) : Shared ι := ⟨w, fun _ => none, []⟩

/-! ## What the file holds -/

/-- The entries of blobs that are written one after the other from an offset on. -/
def entriesFrom : Nat → List EncodedBlob → List BundleIndexEntry
  | _, [] => []
  | offset, b :: bs => entryAt offset b :: entriesFrom (offset + b.encoded.length) bs

/-- The bytes of blobs that are written one after the other. -/
def bytesOf (bs : List EncodedBlob) : Bytes := bs.flatMap EncodedBlob.encoded

theorem entriesFrom_append (offset : Nat) (bs : List EncodedBlob) (b : EncodedBlob) :
    entriesFrom offset (bs ++ [b]) =
      entriesFrom offset bs ++ [entryAt (offset + (bytesOf bs).length) b] := by
  induction bs generalizing offset with
  | nil => rfl
  | cons b' bs ih =>
    have hsum : offset + b'.encoded.length + (bytesOf bs).length =
        offset + (bytesOf (b' :: bs)).length := by
      rw [bytesOf, bytesOf, List.flatMap_cons, List.length_append]
      omega
    rw [List.cons_append, entriesFrom, ih, hsum]
    rfl

@[simp] theorem length_entriesFrom (offset : Nat) (bs : List EncodedBlob) :
    (entriesFrom offset bs).length = bs.length := by
  induction bs generalizing offset with
  | nil => rfl
  | cons b bs ih => rw [entriesFrom, List.length_cons, ih, List.length_cons]

@[simp] theorem map_id_entriesFrom (offset : Nat) (bs : List EncodedBlob) :
    (entriesFrom offset bs).map BundleIndexEntry.id = bs.map EncodedBlob.id := by
  induction bs generalizing offset with
  | nil => rfl
  | cons b bs ih => rw [entriesFrom, List.map_cons, ih, List.map_cons, entryAt]

/-- The entry of a blob has the offset at which its bytes begin. -/
theorem getElem?_entriesFrom (offset : Nat) (pre post : List EncodedBlob) (b : EncodedBlob) :
    (entriesFrom offset (pre ++ b :: post))[pre.length]? =
      some (entryAt (offset + (bytesOf pre).length) b) := by
  induction pre generalizing offset with
  | nil => rfl
  | cons b' pre ih =>
    have hsum : offset + b'.encoded.length + (bytesOf pre).length =
        offset + (bytesOf (b' :: pre)).length := by
      rw [bytesOf, bytesOf, List.flatMap_cons, List.length_append]
      omega
    rw [List.cons_append, entriesFrom, List.length_cons, List.getElem?_cons_succ, ih, hsum]

/-- Blobs that fit in 32 bits take no more than that for each of them. -/
theorem length_bytesOf_le {bs : List EncodedBlob} (h : ∀ b ∈ bs, b.encoded.length < 2 ^ 32) :
    (bytesOf bs).length ≤ bs.length * 2 ^ 32 := by
  induction bs with
  | nil => exact Nat.zero_le _
  | cons b bs ih =>
    have hb := h b List.mem_cons_self
    have hbs := ih fun b' hb' => h b' (List.mem_cons_of_mem _ hb')
    rw [bytesOf, List.flatMap_cons, List.length_append, List.length_cons, Nat.succ_mul]
    rw [bytesOf] at hbs
    omega

/-- The file holds the header and the blobs `bs` behind it, the index has their entries, and they
are the first ones with their IDs among the blobs of the calls that returned. -/
structure Laid (header : Bytes) (returned bs : List EncodedBlob) (w : BundleWriterInner) : Prop where
  file : w.file = header ++ bytesOf bs
  index : w.index.entries = entriesFrom header.length bs
  seen : ∀ id, id ∈ w.seen ↔ id ∈ bs.map EncodedBlob.id
  nodup : (bs.map EncodedBlob.id).Nodup
  first : ∀ id, (bs.find? fun b => b.id = id) = returned.find? fun b => b.id = id
  sub : ∀ b ∈ bs, b ∈ returned

section Runs

variable {ι : Type*} [DecidableEq ι] {storage : SecureStorage} {fromContent : Bytes → ID}
  {header : Bytes} {returned bs : List EncodedBlob} {w : BundleWriterInner} {b : EncodedBlob}

theorem mem_map_id {id : ID} :
    id ∈ bs.map EncodedBlob.id ↔ ∃ b, bs.find? (fun b => b.id = id) = some b := by
  rw [← Option.isSome_iff_exists, List.find?_isSome, List.mem_map]
  simp only [decide_eq_true_eq]

/-- Under the lock a blob with a new ID is appended, and every other one is left out. -/
theorem Laid.append (h : Laid header returned bs w) :
    ∃ bs', Laid header (returned ++ [b]) bs' (append w b) := by
  unfold BundleWriter.append
  by_cases hseen : b.id ∈ w.seen
  · -- a blob with this ID is there already, so the new call is not the first one
    refine ⟨bs, by rw [if_pos hseen]; exact h.file, by rw [if_pos hseen]; exact h.index,
      by rw [if_pos hseen]; exact h.seen, h.nodup, fun id => ?_, fun b' hb' =>
        List.mem_append_left _ (h.sub b' hb')⟩
    rw [List.find?_append, h.first]
    cases hfind : returned.find? fun b' => b'.id = id with
    | some b' => rfl
    | none =>
      have hne : b.id ≠ id := by
        rintro rfl
        obtain ⟨b', hb'⟩ := mem_map_id.mp ((h.seen b.id).mp hseen)
        rw [h.first, hfind] at hb'
        cases hb'
      rw [Option.none_or, List.find?_cons_of_neg (by simpa using hne), List.find?_nil]
  · have hnew : b.id ∉ bs.map EncodedBlob.id := fun hmem => hseen ((h.seen b.id).mpr hmem)
    refine ⟨bs ++ [b], ?_, ?_, ?_, ?_, ?_, ?_⟩
    · rw [if_neg hseen, h.file, bytesOf, bytesOf, List.flatMap_append, List.append_assoc]
      simp
    · rw [if_neg hseen, h.file, h.index, entriesFrom_append, List.length_append]
    · intro id
      rw [if_neg hseen, Finset.mem_insert, h.seen, List.map_append, List.mem_append,
        List.map_singleton, List.mem_singleton, or_comm]
    · rw [List.map_append, List.map_singleton]
      exact List.nodup_append.mpr ⟨h.nodup, List.nodup_singleton _, by
        rintro id hid _ hb rfl
        rw [List.mem_singleton.mp hb] at hid
        exact hnew hid⟩
    · intro id
      rw [List.find?_append, List.find?_append, h.first]
    · intro b' hb'
      rcases List.mem_append.mp hb' with hold | hone
      · exact List.mem_append_left _ (h.sub b' hold)
      · exact List.mem_append_right _ hone

/-- The blobs of the calls are encoded ones. -/
def AllEncoded (storage : SecureStorage) (s : Shared ι) : Prop :=
  (∀ t e, s.pending t = some e → ∃ nonce, storage.encode nonce e.data = some e.encoded) ∧
    ∀ e ∈ s.returned, ∃ nonce, storage.encode nonce e.data = some e.encoded

theorem AllEncoded.step {s s' : Shared ι} {l : Label ι} (h : AllEncoded storage s)
    (hstep : Step storage fromContent s l s') : AllEncoded storage s' := by
  cases hstep with
  | @encode t b nonce e hnone hencode =>
    refine ⟨fun t' e' ht' => ?_, h.2⟩
    change Function.update s.pending t (some e) t' = some e' at ht'
    rw [Function.update_apply] at ht'
    split at ht'
    · obtain ⟨encoded, henc, rfl⟩ := Option.map_eq_some_iff.mp hencode
      cases ht'
      exact ⟨nonce, henc⟩
    · exact h.1 t' e' ht'
  | encodeFails hnone hencode => exact h
  | @append t e hpending =>
    refine ⟨fun t' e' ht' => ?_, fun e' he' => ?_⟩
    · change Function.update s.pending t none t' = some e' at ht'
      rw [Function.update_apply] at ht'
      split at ht'
      · cases ht'
      · exact h.1 t' e' ht'
    · rcases List.mem_append.mp he' with hold | hone
      · exact h.2 e' hold
      · rw [List.mem_singleton.mp hone]
        exact h.1 t e hpending

/-- Whatever the order of the calls, the file holds the first blob of each ID. -/
theorem Laid.run {w₀ : BundleWriterInner} {s : Shared ι} {ls : List (Label ι)}
    (hfile : w₀.file = header) (hindex : w₀.index.entries = []) (hseen : w₀.seen = ∅)
    (hrun : Run (Step storage fromContent) (start w₀) ls s) :
    ∃ bs, Laid header s.returned bs s.inner ∧
      ∀ b ∈ bs, ∃ nonce, storage.encode nonce b.data = some b.encoded := by
  have hinv : AllEncoded storage s ∧ ∃ bs, Laid header s.returned bs s.inner := by
    refine hrun.invariant (P := fun s => AllEncoded storage s ∧ ∃ bs,
      Laid header s.returned bs s.inner)
      (fun s l s' hs hstep => ⟨hs.1.step hstep, ?_⟩) ⟨⟨nofun, nofun⟩, [], ?_⟩
    · obtain ⟨-, bs, hlaid⟩ := hs
      cases hstep with
      | encode => exact ⟨bs, hlaid⟩
      | encodeFails => exact ⟨bs, hlaid⟩
      | append => exact hlaid.append
    · exact ⟨by rw [bytesOf, List.flatMap_nil, List.append_nil]; exact hfile, hindex,
        fun id => by simp [start, hseen], List.nodup_nil, fun id => rfl, nofun⟩
  obtain ⟨⟨-, hencoded⟩, bs, hlaid⟩ := hinv
  exact ⟨bs, hlaid, fun b hb => hencoded b (hlaid.sub b hb)⟩

end Runs

end BundleWriter

end Mapache
