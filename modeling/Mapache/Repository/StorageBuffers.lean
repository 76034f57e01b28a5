import Mapache.Common.Error
import Mapache.Lib.Outcome
import Mapache.Repository.Storage

/-!
# Encoding and decoding, with buffers, errors and panics

`SecureStorage` of `repository/storage.rs` once more: the buffer that holds nonce, payload and tag,
the offsets at which each variant cuts it, the text of the errors, and every operation that may
panic. `Mapache.SecureStorage` is what is left when the failures are not told apart
(`computes_encodeManaged` and so on).

Both ways of encrypting a payload are `sealed`, both ways of decrypting are `opened`, and nothing
panics (`secureStorage_roundTrips`). The compressor and the cipher are parameters with the laws of
their libraries.
-/

set_option autoImplicit false

namespace Mapache.Checked

open Lib

/-! ## The libraries -/

/-- The tag of a cipher. -/
abbrev Tag := { bs : Bytes // bs.length = tagLen }

/-- `Aes256GcmSiv` with its key: what `encrypt_in_place_detached` leaves in the buffer and its tag,
the inverse of that, and `decrypt` for a ciphertext with its tag behind it. What it encrypts it
decrypts, and it rejects everything else. -/
structure Aead where
  encryptInPlaceDetached : Nonce → Bytes → Option (Bytes × Tag)
  decryptInPlaceDetached : Nonce → Bytes → Tag → Option Bytes
  decrypt : Nonce → Bytes → Option Bytes
  length_encrypt : ∀ {n x c t}, encryptInPlaceDetached n x = some (c, t) → c.length = x.length
  decryptDetached_iff : ∀ {n c t x},
    decryptInPlaceDetached n c t = some x ↔ encryptInPlaceDetached n x = some (c, t)
  decrypt_iff : ∀ {n y x},
    decrypt n y = some x ↔ ∃ c t, encryptInPlaceDetached n x = some (c, t) ∧ y = c ++ t.val

/-- A cipher whose tag is any text. -/
def Aead.toCipher (aead : Aead) : Cipher where
  encrypt n x := (aead.encryptInPlaceDetached n x).map fun (c, t) => (c, t.val)
  decrypt n c t := if h : t.length = tagLen then aead.decryptInPlaceDetached n c ⟨t, h⟩ else none
  length_tag := by
    intro n x c t h
    obtain ⟨p, -, hp⟩ := Option.map_eq_some_iff.mp h
    cases hp
    exact p.2.property
  decrypt_encrypt := by
    intro n x c t h
    obtain ⟨p, henc, hp⟩ := Option.map_eq_some_iff.mp h
    cases hp
    rw [dif_pos p.2.property]
    exact aead.decryptDetached_iff.mpr henc

/-- `CParameter`. -/
inductive CParameter where
  | windowLog (value : Nat)
  | checksumFlag (value : Bool)

/-- The library `zstd`, with the text of its errors. A compressor may keep something from one call to
the next; whatever it keeps, what it writes can be decoded. -/
structure Zstd where
  Compressor : Type
  new : Int → Except String Compressor
  setParameter : Compressor → CParameter → Except String Compressor
  compressBound : Nat → Nat
  compressToBuffer : Compressor → Bytes → Nat → Except String Bytes
  afterCompress : Compressor → Bytes → Nat → Compressor
  decodeAll : Bytes → Except String Bytes
  compress_ne_nil : ∀ {c x cap y}, compressToBuffer c x cap = .ok y → y ≠ []
  decode_compress : ∀ {c x cap y}, compressToBuffer c x cap = .ok y → decodeAll y = .ok x

/-! ## The code -/

/-- `NORMAL_CHUNK_SIZE`. -/
def normalChunkSize : Nat := 1024 * 1024

/-- `ZSTD_WINDOW_LOG`. -/
def zstdWindowLog : Nat := (normalChunkSize - 1).nextPowerOfTwo.log2

/-- `slice[i..i + new.len()].copy_from_slice(new)`. -/
def overwrite (l : Bytes) (i : Nat) (new : Bytes) : Bytes :=
  l.take i ++ new ++ l.drop (i + new.length)

/-- `map_err`. -/
def mapErr {ε α : Type} (f : ε → MapacheError) : Except ε α → Outcome MapacheError α
  | .ok a => .ok a
  | .error e => .err (f e)

theorem ok_of_toOption {ε α : Type} {r : Except ε α} {a : α} (h : r.toOption = some a) :
    r = .ok a := by
  cases r with
  | error e => cases h
  | ok b =>
    cases h
    rfl

/-- `SecureStorage`. Its pool of compressors is passed to the functions that use it. -/
structure SecureStorage (zstd : Zstd) where
  compressionLevel : Int
  cipher : Option Aead

namespace SecureStorage

variable {zstd : Zstd}

/-- `SecureStorage::new`, with `DEFAULT_COMPRESSION`. -/
def new : SecureStorage zstd := ⟨3, none⟩

/-- `with_compression`. -/
def withCompression (storage : SecureStorage zstd) (level : Int) : SecureStorage zstd :=
  { storage with compressionLevel := level }

/-- `with_key`; `aes` is `Aes256GcmSiv::new`. -/
def withKey (aes : { key : Bytes // key.length = 32 } → Aead) (storage : SecureStorage zstd)
    (key : Bytes) : Outcome MapacheError (SecureStorage zstd) :=
  if h : key.length ≠ 32 then
    .err (.internal s!"secure storage requires a 32-byte key, got {key.length} bytes")
  else .ok { storage with cipher := some (aes ⟨key, not_not.mp h⟩) }

variable (storage : SecureStorage zstd)

/-- `get_encoding_context`. -/
def getEncodingContext : Outcome MapacheError zstd.Compressor := do
  let compressor ← mapErr (fun e => .compression ("zstd init failed: " ++ e))
    (zstd.new storage.compressionLevel)
  let compressor ← mapErr .io (zstd.setParameter compressor (.windowLog zstdWindowLog))
  mapErr .io (zstd.setParameter compressor (.checksumFlag false))

/-- Encryption of a buffer from `start` on, as `transform_into` and `encrypt_into` do it. -/
def encryptFrom (cipher : Aead) (nonce : Nonce) (out : Bytes) (start : Nat) :
    Outcome MapacheError Bytes := do
  let payload ← Outcome.sliceFrom out start
  match cipher.encryptInPlaceDetached nonce payload with
  | none => .err (.crypto "encryption failed")
  | some (c, tag) => .ok (overwrite out start c ++ tag.val)

/-- `transform_into`, with the nonce it draws. -/
def transformInto (ctx : Option zstd.Compressor) (nonce : Nonce) (data : Bytes) :
    Outcome MapacheError Bytes := do
  let bound := if ctx.isSome then zstd.compressBound data.length else data.length
  let out : Bytes := if storage.cipher.isSome then nonce.val else []
  let dataStart := out.length
  let out ← match ctx with
    | some c => do
        -- `set_len`: what the new bytes are does not matter
        let out := out ++ List.replicate bound 0
        let frame ← mapErr (fun e => .compression ("zstd failed: " ++ e))
          (zstd.compressToBuffer c data (out.length - dataStart))
        pure ((overwrite out dataStart frame).take (dataStart + frame.length))
    | none => pure (out ++ data)
  match storage.cipher with
  | none => pure out
  | some cipher => encryptFrom cipher nonce out dataStart

/-- `encrypt`. -/
def encrypt (nonce : Nonce) (data : Bytes) : Outcome MapacheError Bytes :=
  storage.transformInto none nonce data

/-- `encrypt_into`, which is `encrypt_managed`. -/
def encryptInto (nonce : Nonce) (data : Bytes) : Outcome MapacheError Bytes :=
  match storage.cipher with
  | none => .ok data
  | some cipher => encryptFrom cipher nonce (nonce.val ++ data) nonceLen

/-- `encode_managed`. -/
def encodeManaged (ctx : zstd.Compressor) (nonce : Nonce) (data : Bytes) :
    Outcome MapacheError Bytes :=
  storage.transformInto (some ctx) nonce data

/-- `take_encoding_context`. -/
def takeEncodingContext (pool : List zstd.Compressor) :
    Outcome MapacheError (zstd.Compressor × List zstd.Compressor) :=
  match pool with
  | ctx :: pool => .ok (ctx, pool)
  | [] => do
      let ctx ← storage.getEncodingContext
      pure (ctx, [])

/-- `encode`: the result, and the pool with the context given back. -/
def encode (pool : List zstd.Compressor) (nonce : Nonce) (data : Bytes) :
    Outcome MapacheError Bytes × List zstd.Compressor :=
  match storage.takeEncodingContext pool with
  | .ok (ctx, pool) =>
    (storage.encodeManaged ctx nonce data,
      zstd.afterCompress ctx data (zstd.compressBound data.length) :: pool)
  | .err e => (.err e, pool)
  | .panic => (.panic, pool)

/-- `decrypt`. -/
def decrypt (data : Bytes) : Outcome MapacheError Bytes :=
  match storage.cipher with
  | none => .ok data
  | some cipher =>
    if data.length < nonceLen + tagLen then .err (.integrity "invalid ciphertext")
    else do
      -- `split_at`
      let nonce ← Outcome.sliceTo data nonceLen
      let ciphertextAndTag ← Outcome.sliceFrom data nonceLen
      let nonce ← Outcome.fixed nonceLen nonce
      match cipher.decrypt nonce ciphertextAndTag with
      | none => .err (.crypto "decryption failed")
      | some decrypted => .ok decrypted

/-- `decrypt_in_place`. -/
def decryptInPlace (data : Bytes) : Outcome MapacheError Bytes :=
  match storage.cipher with
  | none => .ok data
  | some cipher =>
    if data.length < nonceLen + tagLen then .err (.integrity "invalid ciphertext")
    else do
      let nonce ← Outcome.sliceTo data nonceLen
      let nonce ← Outcome.fixed nonceLen nonce
      let payloadLen := data.length - nonceLen - tagLen
      let data ← Outcome.copyWithin data nonceLen (nonceLen + payloadLen) 0
      let tag ← Outcome.sliceFrom data (nonceLen + payloadLen)
      let tag ← Outcome.fixed tagLen tag
      match cipher.decryptInPlaceDetached nonce (data.take payloadLen) tag with
      | none => .err (.crypto "decryption failed")
      | some decrypted => .ok decrypted

/-- `decompress`. -/
def decompress (_ : SecureStorage zstd) (data : Bytes) : Outcome MapacheError Bytes :=
  mapErr (fun e => .compression ("zstd decompression failed: " ++ e)) (zstd.decodeAll data)

/-- `decode`. -/
def decode (data : Bytes) : Outcome MapacheError Bytes := do
  let decrypted ← storage.decrypt data
  storage.decompress decrypted

/-- `decode_owned`. -/
def decodeOwned (data : Bytes) : Outcome MapacheError Bytes := do
  let decrypted ← storage.decryptInPlace data
  storage.decompress decrypted

/-! ## What the buffers hold -/

/-- What a payload becomes: the nonce, the ciphertext and the tag, or the payload itself. -/
def sealed (nonce : Nonce) (payload : Bytes) : Outcome MapacheError Bytes :=
  match storage.cipher with
  | none => .ok payload
  | some cipher =>
    match cipher.encryptInPlaceDetached nonce payload with
    | none => .err (.crypto "encryption failed")
    | some (c, tag) => .ok (nonce.val ++ c ++ tag.val)

/-- What is read from a stored text: the nonce, the ciphertext and the tag go to the cipher. -/
def opened (data : Bytes) : Outcome MapacheError Bytes :=
  match storage.cipher with
  | none => .ok data
  | some cipher =>
    if h : nonceLen + tagLen ≤ data.length then
      let rest := data.drop nonceLen
      match cipher.decryptInPlaceDetached (Mapache.SecureStorage.nonceOf data h)
          (rest.take (rest.length - tagLen))
          ⟨rest.drop (rest.length - tagLen), by simp only [rest, List.length_drop]; omega⟩ with
      | none => .err (.crypto "decryption failed")
      | some decrypted => .ok decrypted
    else .err (.integrity "invalid ciphertext")

theorem take_overwrite_append (l new rest : Bytes) :
    (overwrite (l ++ rest) l.length new).take (l.length + new.length) = l ++ new := by
  rw [overwrite, List.take_left, List.take_left' List.length_append]

theorem encryptFrom_append (cipher : Aead) (nonce : Nonce) (out payload : Bytes) :
    encryptFrom cipher nonce (out ++ payload) out.length =
      match cipher.encryptInPlaceDetached nonce payload with
      | none => .err (.crypto "encryption failed")
      | some (c, tag) => .ok (out ++ c ++ tag.val) := by
  unfold encryptFrom
  rw [Outcome.sliceFrom_of_le (by rw [List.length_append]; omega), List.drop_left]
  cases henc : cipher.encryptInPlaceDetached nonce payload with
  | none => simp [henc]
  | some p =>
    obtain ⟨c, tag⟩ := p
    have hlen := cipher.length_encrypt henc
    have hover : overwrite (out ++ payload) out.length c = out ++ c := by
      rw [overwrite, List.take_left, List.drop_append, List.drop_eq_nil_of_le (by omega),
        List.drop_eq_nil_of_le (by omega), List.append_nil, List.append_nil]
    simp [henc, hover]

variable {storage}

theorem encryptInto_eq_sealed (nonce : Nonce) (data : Bytes) :
    storage.encryptInto nonce data = storage.sealed nonce data := by
  unfold encryptInto sealed
  cases storage.cipher with
  | none => rfl
  | some cipher =>
    have h := encryptFrom_append cipher nonce nonce.val data
    rwa [nonce.property] at h

theorem encrypt_eq_sealed (nonce : Nonce) (data : Bytes) :
    storage.encrypt nonce data = storage.sealed nonce data := by
  unfold encrypt transformInto sealed
  cases storage.cipher with
  | none => simp
  | some cipher => simp [encryptFrom_append]

/-- The frame of a compressor in the buffer, then the encryption from its start on. -/
theorem encodeManaged_eq_sealed (ctx : zstd.Compressor) (nonce : Nonce) (data : Bytes) :
    storage.encodeManaged ctx nonce data =
      (mapErr (fun e => .compression ("zstd failed: " ++ e))
        (zstd.compressToBuffer ctx data (zstd.compressBound data.length))) >>=
          storage.sealed nonce := by
  unfold encodeManaged transformInto
  cases hframe : zstd.compressToBuffer ctx data (zstd.compressBound data.length) with
  | error e => cases storage.cipher <;> simp [hframe, mapErr]
  | ok frame =>
    cases hcipher : storage.cipher with
    | none =>
      have h := take_overwrite_append [] frame
        (List.replicate (zstd.compressBound data.length) 0)
      simpa [hframe, mapErr, sealed, hcipher] using h
    | some cipher =>
      have h := take_overwrite_append nonce.val frame
        (List.replicate (zstd.compressBound data.length) 0)
      simp [hframe, mapErr, sealed, hcipher, h, encryptFrom_append]

/-- The cut of a ciphertext in front of its tag is the only one the cipher may accept. -/
theorem decrypt_eq_detached (cipher : Aead) (nonce : Nonce) {c : Bytes} (tag : Tag) :
    cipher.decrypt nonce (c ++ tag.val) = cipher.decryptInPlaceDetached nonce c tag := by
  apply Option.ext
  intro x
  rw [cipher.decrypt_iff, cipher.decryptDetached_iff]
  constructor
  · rintro ⟨c', tag', henc, heq⟩
    have hlen : c.length = c'.length := by
      have h := congrArg List.length heq
      rw [List.length_append, List.length_append, tag.property, tag'.property] at h
      omega
    obtain ⟨rfl, htag⟩ := List.append_inj heq hlen
    rwa [Subtype.ext htag]
  · intro henc
    exact ⟨c, tag, henc, rfl⟩

theorem decrypt_eq_opened (data : Bytes) : storage.decrypt data = storage.opened data := by
  unfold decrypt opened
  cases storage.cipher with
  | none => rfl
  | some cipher =>
    by_cases hlen : nonceLen + tagLen ≤ data.length
    · have hnonce : (data.take nonceLen).length = nonceLen := by
        rw [List.length_take]
        omega
      have htag : ((data.drop nonceLen).drop ((data.drop nonceLen).length - tagLen)).length =
          tagLen := by
        rw [List.length_drop, List.length_drop]
        omega
      have hopen := decrypt_eq_detached cipher ⟨_, hnonce⟩
        (c := (data.drop nonceLen).take ((data.drop nonceLen).length - tagLen)) ⟨_, htag⟩
      rw [List.take_append_drop] at hopen
      simp only [if_neg (not_lt.mpr hlen), dif_pos hlen,
        Outcome.sliceTo_of_le (show nonceLen ≤ data.length by omega),
        Outcome.sliceFrom_of_le (show nonceLen ≤ data.length by omega), Outcome.ok_bind,
        Outcome.fixed_of_eq hnonce, hopen]
      rfl
    · simp only [if_pos (not_le.mp hlen), dif_neg hlen]

theorem decryptInPlace_eq_opened (data : Bytes) :
    storage.decryptInPlace data = storage.opened data := by
  unfold decryptInPlace opened
  cases storage.cipher with
  | none => rfl
  | some cipher =>
    by_cases hlen : nonceLen + tagLen ≤ data.length
    · obtain ⟨n, hn⟩ : ∃ n, data.length - nonceLen - tagLen = n := ⟨_, rfl⟩
      have hrest : (data.drop nonceLen).length - tagLen = n := by
        rw [List.length_drop, hn]
      have hnonce : (data.take nonceLen).length = nonceLen := by
        rw [List.length_take]
        omega
      have hpayload : ((data.drop nonceLen).take n).length = n := by
        rw [List.length_take, List.length_drop]
        omega
      have hfront : nonceLen + n ≤ ((data.drop nonceLen).take n ++ data.drop n).length := by
        rw [List.length_append, hpayload, List.length_drop]
        omega
      -- The tag is still where it was: the payload in front of it moved by the nonce only.
      have htag : ((data.drop nonceLen).take n ++ data.drop n).drop (nonceLen + n) =
          (data.drop nonceLen).drop n := by
        rw [List.drop_append, hpayload, List.drop_eq_nil_of_le (by omega), List.nil_append,
          List.drop_drop, List.drop_drop]
        congr 1
        omega
      have hcut : ((data.drop nonceLen).take n ++ data.drop n).take n =
          (data.drop nonceLen).take n := List.take_left' hpayload
      have hlenTag : ((data.drop nonceLen).drop n).length = tagLen := by
        rw [List.length_drop, List.length_drop]
        omega
      simp only [if_neg (not_lt.mpr hlen), dif_pos hlen, hn, hrest,
        Outcome.sliceTo_of_le (show nonceLen ≤ data.length by omega), Outcome.ok_bind,
        Outcome.fixed_of_eq hnonce,
        Outcome.copyWithin_front (show nonceLen + n ≤ data.length by omega),
        Outcome.sliceFrom_of_le hfront, hcut, htag, Outcome.fixed_of_eq hlenTag]
      rfl
    · simp only [if_pos (not_le.mp hlen), dif_neg hlen]

/-! ## Without the errors -/

/-- The storage with one compressor, without the texts of its errors. -/
def toStorage (storage : SecureStorage zstd) (ctx : zstd.Compressor) : Mapache.SecureStorage where
  compress x := (zstd.compressToBuffer ctx x (zstd.compressBound x.length)).toOption
  decompress y := (zstd.decodeAll y).toOption
  cipher := storage.cipher.map Aead.toCipher
  compress_ne_nil := by
    intro x y h
    exact zstd.compress_ne_nil (ok_of_toOption h)
  decompress_compress := by
    intro x y h
    rw [zstd.decode_compress (ok_of_toOption h)]
    rfl

/-- The cipher of the storage, for the calls that never reach the compressor. -/
def toCipherStorage (storage : SecureStorage zstd) : Mapache.SecureStorage :=
  { headerStorage with cipher := storage.cipher.map Aead.toCipher }

theorem computes_mapErr {ε α : Type} (f : ε → MapacheError) (r : Except ε α) :
    (mapErr f r).Computes r.toOption := by
  cases r with
  | error e => exact Outcome.computes_err _
  | ok a => exact Outcome.computes_ok a

section Cipher

variable {base : Mapache.SecureStorage}

theorem computes_sealed (hbase : base.cipher = storage.cipher.map Aead.toCipher) (nonce : Nonce)
    (payload : Bytes) :
    (storage.sealed nonce payload).Computes (base.sealPayload nonce payload) := by
  unfold sealed Mapache.SecureStorage.sealPayload
  rw [hbase]
  cases storage.cipher with
  | none => exact Outcome.computes_ok payload
  | some cipher =>
    cases henc : cipher.encryptInPlaceDetached nonce payload with
    | none =>
      simp only [Option.map_some, Aead.toCipher, henc]
      exact Outcome.computes_err _
    | some p =>
      simp only [Option.map_some, Aead.toCipher, henc]
      exact Outcome.computes_ok _

theorem computes_opened (hbase : base.cipher = storage.cipher.map Aead.toCipher) (data : Bytes) :
    (storage.opened data).Computes (base.decrypt data) := by
  unfold opened Mapache.SecureStorage.decrypt
  rw [hbase]
  cases storage.cipher with
  | none => exact Outcome.computes_ok data
  | some cipher =>
    by_cases hlen : nonceLen + tagLen ≤ data.length
    · -- what is left behind the payload is as long as a tag
      have htag : ((data.drop nonceLen).drop ((data.drop nonceLen).length - tagLen)).length =
          tagLen := by
        rw [List.length_drop, List.length_drop]
        omega
      simp only [dif_pos hlen, Option.map_some, Aead.toCipher, dif_pos htag]
      split
      · rename_i h
        rw [h]
        exact Outcome.computes_err _
      · rename_i x h
        rw [h]
        exact Outcome.computes_ok x
    · simp only [dif_neg hlen, Option.map_some]
      exact Outcome.computes_err _

end Cipher

theorem computes_encodeManaged (ctx : zstd.Compressor) (nonce : Nonce) (data : Bytes) :
    (storage.encodeManaged ctx nonce data).Computes
      ((storage.toStorage ctx).encode nonce data) := by
  rw [encodeManaged_eq_sealed]
  exact (computes_mapErr _ _).bind (computes_sealed rfl nonce)

theorem computes_decode (ctx : zstd.Compressor) (data : Bytes) :
    (storage.decode data).Computes ((storage.toStorage ctx).decode data) := by
  have hbase : (storage.toStorage ctx).cipher = storage.cipher.map Aead.toCipher := rfl
  rw [decode, decrypt_eq_opened]
  apply (computes_opened hbase data).bind
  intro decrypted
  exact computes_mapErr _ _

/-! ## Round trips -/

/-- The compressor that an encoding works with: the last one that was given back, or a new one after
the two calls that set its parameters. -/
inductive Takes (storage : SecureStorage zstd) :
    List zstd.Compressor → zstd.Compressor → Prop
  | pooled {ctx : zstd.Compressor} {pool : List zstd.Compressor} : Takes storage (ctx :: pool) ctx
  | fresh {c c' ctx : zstd.Compressor} (hnew : zstd.new storage.compressionLevel = .ok c)
      (hwindow : zstd.setParameter c (.windowLog zstdWindowLog) = .ok c')
      (hchecksum : zstd.setParameter c' (.checksumFlag false) = .ok ctx) : Takes storage [] ctx

/-- The calls of the libraries succeed and make `y` of the data. -/
structure EncodesTo (storage : SecureStorage zstd) (pool : List zstd.Compressor) (nonce : Nonce)
    (data : Bytes) (ctx : zstd.Compressor) (frame y : Bytes) : Prop where
  takes : Takes storage pool ctx
  compressed : zstd.compressToBuffer ctx data (zstd.compressBound data.length) = .ok frame
  plain : storage.cipher = none → y = frame
  encrypted : ∀ cipher, storage.cipher = some cipher → ∃ c tag,
    cipher.encryptInPlaceDetached nonce frame = some (c, tag) ∧ y = nonce.val ++ c ++ tag.val

/-- The error of an encoding is one of its libraries': a new compressor is refused or one of its
parameters, the compressor fails on the data, or the cipher refuses the frame. -/
inductive EncodeRefused (storage : SecureStorage zstd) (pool : List zstd.Compressor)
    (nonce : Nonce) (data : Bytes) (e : MapacheError) : Prop
  | init {text : String} (hpool : pool = []) (h : zstd.new storage.compressionLevel = .error text)
      (he : e = .compression ("zstd init failed: " ++ text))
  | windowLog {c : zstd.Compressor} {text : String} (hpool : pool = [])
      (hnew : zstd.new storage.compressionLevel = .ok c)
      (h : zstd.setParameter c (.windowLog zstdWindowLog) = .error text) (he : e = .io text)
  | checksumFlag {c c' : zstd.Compressor} {text : String} (hpool : pool = [])
      (hnew : zstd.new storage.compressionLevel = .ok c)
      (hwindow : zstd.setParameter c (.windowLog zstdWindowLog) = .ok c')
      (h : zstd.setParameter c' (.checksumFlag false) = .error text) (he : e = .io text)
  | compression {ctx : zstd.Compressor} {text : String} (hctx : Takes storage pool ctx)
      (h : zstd.compressToBuffer ctx data (zstd.compressBound data.length) = .error text)
      (he : e = .compression ("zstd failed: " ++ text))
  | encryption {ctx : zstd.Compressor} {frame : Bytes} {cipher : Aead}
      (hctx : Takes storage pool ctx)
      (hframe : zstd.compressToBuffer ctx data (zstd.compressBound data.length) = .ok frame)
      (hcipher : storage.cipher = some cipher)
      (h : cipher.encryptInPlaceDetached nonce frame = none)
      (he : e = .crypto "encryption failed")

/-- An encoding ends, and what it gives decodes to the data. -/
def RoundTrips (storage : SecureStorage zstd) (pool : List zstd.Compressor) (nonce : Nonce)
    (data : Bytes) : Prop :=
  match (storage.encode pool nonce data).1 with
  | .ok y => storage.decode y = .ok data
  | .err e => EncodeRefused storage pool nonce data e
  | .panic => False

theorem returns_decode (data : Bytes) : (storage.decode data).Returns := by
  have hbase : storage.toCipherStorage.cipher = storage.cipher.map Aead.toCipher := rfl
  rw [decode, decrypt_eq_opened]
  apply (computes_opened hbase data).returns.bind
  intro decrypted _
  exact (computes_mapErr _ _).returns

/-- What `take_encoding_context` does: three calls of the library, unless the pool has a compressor.
-/
theorem takeEncodingContext_cases (pool : List zstd.Compressor) (nonce : Nonce) (data : Bytes) :
    (∃ ctx rest, storage.takeEncodingContext pool = .ok (ctx, rest) ∧
      ∀ ctx', Takes storage pool ctx' ↔ ctx' = ctx) ∨
    ∃ e, storage.takeEncodingContext pool = .err e ∧ EncodeRefused storage pool nonce data e ∧
      ∀ ctx', ¬ Takes storage pool ctx' := by
  cases pool with
  | cons ctx pool =>
    refine .inl ⟨ctx, pool, rfl, fun ctx' => ⟨fun h => ?_, fun h => h ▸ .pooled⟩⟩
    cases h
    rfl
  | nil =>
    unfold takeEncodingContext getEncodingContext
    cases hnew : zstd.new storage.compressionLevel with
    | error text =>
      refine .inr ⟨_, rfl, .init rfl hnew rfl, fun ctx' h => ?_⟩
      cases h with
      | fresh hnew' =>
        rw [hnew] at hnew'
        cases hnew'
    | ok c =>
      cases hwindow : zstd.setParameter c (.windowLog zstdWindowLog) with
      | error text =>
        refine .inr ⟨.io text, by simp [mapErr, hwindow], .windowLog rfl hnew hwindow rfl,
          fun ctx' h => ?_⟩
        cases h with
        | fresh hnew' hwindow' =>
          rw [hnew] at hnew'
          cases hnew'
          rw [hwindow] at hwindow'
          cases hwindow'
      | ok c' =>
        cases hchecksum : zstd.setParameter c' (.checksumFlag false) with
        | error text =>
          refine .inr ⟨.io text, by simp [mapErr, hwindow, hchecksum],
            .checksumFlag rfl hnew hwindow hchecksum rfl, fun ctx' h => ?_⟩
          cases h with
          | fresh hnew' hwindow' hchecksum' =>
            rw [hnew] at hnew'
            cases hnew'
            rw [hwindow] at hwindow'
            cases hwindow'
            rw [hchecksum] at hchecksum'
            cases hchecksum'
        | ok ctx =>
          refine .inl ⟨ctx, [], by simp [mapErr, hwindow, hchecksum], fun ctx' =>
            ⟨fun h => ?_, fun h => h ▸ .fresh hnew hwindow hchecksum⟩⟩
          cases h with
          | fresh hnew' hwindow' hchecksum' =>
            rw [hnew] at hnew'
            cases hnew'
            rw [hwindow] at hwindow'
            cases hwindow'
            rw [hchecksum] at hchecksum'
            cases hchecksum'
            rfl

theorem decode_encodeManaged {ctx : zstd.Compressor} {nonce : Nonce} {data y : Bytes}
    (h : storage.encodeManaged ctx nonce data = .ok y) : storage.decode y = .ok data := by
  rw [← Outcome.toOption_eq_some, (computes_decode ctx y).value]
  have hout : (storage.toStorage ctx).encode nonce data = some y := by
    rw [← (computes_encodeManaged ctx nonce data).value, h]
    rfl
  exact Mapache.SecureStorage.decode_encode hout

/-- The cipher is the only step that may fail behind the compressor. -/
theorem sealed_cases (nonce : Nonce) (payload : Bytes) :
    (∃ y, storage.sealed nonce payload = .ok y ∧ (storage.cipher = none → y = payload) ∧
      ∀ cipher, storage.cipher = some cipher → ∃ c tag,
        cipher.encryptInPlaceDetached nonce payload = some (c, tag) ∧
          y = nonce.val ++ c ++ tag.val) ∨
      ∃ cipher, storage.cipher = some cipher ∧ cipher.encryptInPlaceDetached nonce payload = none ∧
        storage.sealed nonce payload = .err (.crypto "encryption failed") := by
  unfold sealed
  cases hcipher : storage.cipher with
  | none => exact .inl ⟨payload, rfl, fun _ => rfl, fun _ h => by cases h⟩
  | some cipher =>
    cases henc : cipher.encryptInPlaceDetached nonce payload with
    | none => exact .inr ⟨cipher, rfl, henc, by simp only [henc]⟩
    | some p =>
      refine .inl ⟨nonce.val ++ p.1 ++ p.2.val, by simp only [henc],
        (fun h => by cases h), fun cipher' h => ?_⟩
      cases h
      exact ⟨p.1, p.2, henc, rfl⟩

/-- **What an encoding gives**: an error of a library, or what its calls make of the data. -/
theorem encode_cases (pool : List zstd.Compressor) (nonce : Nonce) (data : Bytes) :
    (∃ ctx frame y, (storage.encode pool nonce data).1 = .ok y ∧
      EncodesTo storage pool nonce data ctx frame y ∧ storage.decode y = .ok data) ∨
    ∃ e, (storage.encode pool nonce data).1 = .err e ∧ EncodeRefused storage pool nonce data e ∧
      ∀ ctx frame y, ¬ EncodesTo storage pool nonce data ctx frame y := by
  unfold encode
  obtain ⟨ctx, rest, hctx, htakes⟩ | ⟨e, hctx, hrefused, hnone⟩ :=
    @takeEncodingContext_cases zstd storage pool nonce data
  · have hout := @encodeManaged_eq_sealed zstd storage ctx nonce data
    rw [hctx]
    cases hframe : zstd.compressToBuffer ctx data (zstd.compressBound data.length) with
    | error text =>
      rw [hframe] at hout
      refine .inr ⟨_, hout, .compression ((htakes ctx).mpr rfl) hframe rfl, fun ctx' frame y h => ?_⟩
      have hcompressed := h.compressed
      rw [(htakes ctx').mp h.takes, hframe] at hcompressed
      cases hcompressed
    | ok frame =>
      rw [hframe] at hout
      simp only [mapErr, Outcome.ok_bind] at hout
      obtain ⟨y, hy, hplain, hencrypted⟩ | ⟨cipher, hcipher, henc, herr⟩ :=
        @sealed_cases zstd storage nonce frame
      · exact .inl ⟨ctx, frame, y, hout.trans hy,
          ⟨(htakes ctx).mpr rfl, hframe, hplain, hencrypted⟩, decode_encodeManaged (hout.trans hy)⟩
      · refine .inr ⟨_, hout.trans herr, .encryption ((htakes ctx).mpr rfl) hframe hcipher henc rfl,
          fun ctx' frame' y h => ?_⟩
        have hcompressed := h.compressed
        rw [(htakes ctx').mp h.takes, hframe] at hcompressed
        cases hcompressed
        obtain ⟨c, tag, hsome, -⟩ := h.encrypted cipher hcipher
        rw [henc] at hsome
        cases hsome
  · refine .inr ⟨e, by rw [hctx], hrefused, fun ctx frame y h => hnone ctx h.takes⟩

theorem roundTrips (storage : SecureStorage zstd) (pool : List zstd.Compressor) (nonce : Nonce)
    (data : Bytes) : RoundTrips storage pool nonce data := by
  unfold RoundTrips
  obtain ⟨ctx, frame, y, hy, -, hdecode⟩ | ⟨e, he, hrefused, -⟩ :=
    @encode_cases zstd storage pool nonce data
  · rw [hy]
    exact hdecode
  · rw [he]
    exact hrefused

/-- An encoding succeeds exactly where the calls of the libraries do. -/
theorem encode_succeeds_iff (pool : List zstd.Compressor) (nonce : Nonce) (data : Bytes) :
    (∃ y, (storage.encode pool nonce data).1 = .ok y) ↔
      ∃ ctx frame y, EncodesTo storage pool nonce data ctx frame y := by
  obtain ⟨ctx, frame, y, hy, hto, -⟩ | ⟨e, he, -, hnone⟩ := @encode_cases zstd storage pool nonce data
  · exact iff_of_true ⟨y, hy⟩ ⟨ctx, frame, y, hto⟩
  · refine iff_of_false (fun ⟨y, hy⟩ => ?_) fun ⟨ctx, frame, y, h⟩ => hnone ctx frame y h
    rw [he] at hy
    cases hy

theorem decodeOwned_eq_decode (data : Bytes) : storage.decodeOwned data = storage.decode data := by
  rw [decodeOwned, decode, decryptInPlace_eq_opened, decrypt_eq_opened]

/-- With any compression level, and with any key or none: an encoding succeeds exactly where the calls
of the libraries do, what is encoded decodes to the data, both ways of decoding agree on every text and
end without a panic, and so do the ways of encrypting and of decrypting. -/
theorem secureStorage_roundTrips (storage : SecureStorage zstd) :
    (∀ pool nonce data, RoundTrips storage pool nonce data ∧
      ((∃ y, (storage.encode pool nonce data).1 = .ok y) ↔
        ∃ ctx frame y, EncodesTo storage pool nonce data ctx frame y)) ∧
      (∀ data, (storage.decode data).Returns ∧ storage.decodeOwned data = storage.decode data) ∧
      (∀ nonce data, storage.encryptInto nonce data = storage.encrypt nonce data) ∧
      ∀ data, storage.decryptInPlace data = storage.decrypt data := by
  refine ⟨fun pool nonce data => ⟨roundTrips storage pool nonce data, encode_succeeds_iff pool nonce
    data⟩, fun data => ⟨returns_decode data, decodeOwned_eq_decode data⟩, ?_, ?_⟩
  · intro nonce data
    rw [encryptInto_eq_sealed, encrypt_eq_sealed]
  · intro data
    rw [decryptInPlace_eq_opened, decrypt_eq_opened]

end SecureStorage

/-! ## Concrete libraries -/

theorem length_keyTag (key : Bytes) : (keyTag key).length = tagLen := by
  simp only [keyTag, List.length_take, List.length_append, List.length_replicate]
  omega

/-- A cipher that only puts the tag of its key behind the data. -/
def keyedAead (key : Bytes) : Aead where
  encryptInPlaceDetached _ x := some (x, ⟨keyTag key, length_keyTag key⟩)
  decryptInPlaceDetached _ c t := if t.val = keyTag key then some c else none
  decrypt _ y :=
    if y = y.take (y.length - tagLen) ++ keyTag key then some (y.take (y.length - tagLen))
    else none
  length_encrypt := by
    rintro n x c t ⟨⟩
    rfl
  decryptDetached_iff := by
    intro n c t x
    simp only [Option.ite_none_right_eq_some, Option.some.injEq, Prod.mk.injEq, Subtype.ext_iff]
    constructor
    · rintro ⟨htag, rfl⟩
      exact ⟨rfl, htag.symm⟩
    · rintro ⟨rfl, htag⟩
      exact ⟨htag.symm, rfl⟩
  decrypt_iff := by
    intro n y x
    simp only [Option.ite_none_right_eq_some, Option.some.injEq, Prod.mk.injEq]
    constructor
    · rintro ⟨hy, rfl⟩
      exact ⟨_, _, ⟨rfl, rfl⟩, hy⟩
    · rintro ⟨c, t, ⟨rfl, rfl⟩, rfl⟩
      have htake : (x ++ keyTag key).take ((x ++ keyTag key).length - tagLen) = x := by
        rw [List.length_append, length_keyTag, Nat.add_sub_cancel, List.take_left]
      simp only [htake, and_self]

/-- A compressor that only writes a header byte. -/
def headerZstd : Zstd where
  Compressor := Unit
  new _ := .ok ()
  setParameter c _ := .ok c
  compressBound n := n + 1
  compressToBuffer _ x cap :=
    if x.length < cap then .ok (1 :: x) else .error "Destination buffer is too small"
  afterCompress c _ _ := c
  decodeAll
    | 1 :: x => .ok x
    | _ => .error "Unknown frame descriptor"
  compress_ne_nil := by
    intro c x cap y h
    split at h
    · cases h
      exact List.cons_ne_nil _ _
    · cases h
  decode_compress := by
    intro c x cap y h
    split at h
    · cases h
      rfl
    · cases h

/-- With a key and the compression level 22 two bytes are encoded, and all ways back lead to them. -/
theorem secureStorage_roundTrips_header : ∃ (storage : SecureStorage headerZstd) (y : Bytes),
    ((SecureStorage.new : SecureStorage headerZstd).withCompression 22).withKey
      (fun key => keyedAead key.val) (List.replicate 32 7) = .ok storage ∧
    (storage.encode [] sampleNonce [5, 6]).1 = .ok y ∧ storage.decode y = .ok [5, 6] ∧
    storage.decodeOwned y = .ok [5, 6] ∧
    storage.encryptInto sampleNonce [5, 6] = storage.encrypt sampleNonce [5, 6] ∧
    storage.decryptInPlace y = storage.decrypt y := by
  obtain ⟨storage, hstorage⟩ : ∃ storage : SecureStorage headerZstd,
      storage = ⟨22, some (keyedAead (List.replicate 32 7))⟩ := ⟨_, rfl⟩
  obtain ⟨hencode, hdecode, hencrypt, hdecrypt⟩ := SecureStorage.secureStorage_roundTrips storage
  obtain ⟨hround, hsucceeds⟩ := hencode [] sampleNonce [5, 6]
  have hto : SecureStorage.EncodesTo storage [] sampleNonce [5, 6] () [1, 5, 6]
      (sampleNonce.val ++ [1, 5, 6] ++ keyTag (List.replicate 32 7)) := by
    refine ⟨.fresh rfl rfl rfl, rfl, fun h => ?_, fun cipher h => ?_⟩
    · rw [hstorage] at h
      cases h
    · rw [hstorage] at h
      cases h
      exact ⟨[1, 5, 6], ⟨keyTag _, length_keyTag _⟩, rfl, rfl⟩
  obtain ⟨y, hy⟩ := hsucceeds.mpr ⟨_, _, _, hto⟩
  unfold SecureStorage.RoundTrips at hround
  rw [hy] at hround
  exact ⟨storage, y, hstorage ▸ rfl, hy, hround, (hdecode y).2.trans hround, hencrypt _ _, hdecrypt y⟩

end Mapache.Checked
