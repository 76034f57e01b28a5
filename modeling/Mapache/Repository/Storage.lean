import Mapache.Lib.Bytes

/-!
# Encoding and decoding

`SecureStorage` of `repository/storage.rs`: compression followed by authenticated encryption with a
random nonce in front and the tag behind. The compressor and the cipher are parameters with the laws
their libraries document. `decode_encode` and `decodeOwned_eq_decode` are what the rest of the
development uses.
-/

set_option autoImplicit false

namespace Mapache

open Lib

/-- `AES_GCM_NONCE_LEN`. -/
def nonceLen : Nat := 12

/-- `AES_GCM_TAG_LEN`. -/
def tagLen : Nat := 16

/-- The nonce of one encryption. -/
abbrev Nonce := { bs : Bytes // bs.length = nonceLen }

/-- An authenticated cipher with its key, in the detached form: a nonce and a payload give a payload
of the same length and a tag. -/
structure Cipher where
  encrypt : Nonce → Bytes → Option (Bytes × Bytes)
  decrypt : Nonce → Bytes → Bytes → Option Bytes
  length_tag : ∀ {n x c t}, encrypt n x = some (c, t) → t.length = tagLen
  decrypt_encrypt : ∀ {n x c t}, encrypt n x = some (c, t) → decrypt n c t = some x

/-- A compressor and an optional cipher. A compressed frame is never empty. -/
structure SecureStorage where
  compress : Bytes → Option Bytes
  decompress : Bytes → Option Bytes
  cipher : Option Cipher
  compress_ne_nil : ∀ {x y}, compress x = some y → y ≠ []
  decompress_compress : ∀ {x y}, compress x = some y → decompress y = some x

namespace SecureStorage

variable (storage : SecureStorage)

/-- The encryption half of `transform_into`: the nonce, the payload, the tag. -/
def sealPayload (nonce : Nonce) (payload : Bytes) : Option Bytes :=
  match storage.cipher with
  | none => some payload
  | some cipher => (cipher.encrypt nonce payload).map fun (c, tag) => nonce.val ++ c ++ tag

/-- `SecureStorage::encode`, with the nonce it draws. -/
def encode (nonce : Nonce) (data : Bytes) : Option Bytes :=
  (storage.compress data).bind (storage.sealPayload nonce)

/-- The nonce at the front of a ciphertext. -/
def nonceOf (data : Bytes) (h : nonceLen + tagLen ≤ data.length) : Nonce :=
  ⟨data.take nonceLen, by rw [List.length_take]; omega⟩

/-- `SecureStorage::decrypt`: the tag is the end of what follows the nonce. -/
def decrypt (data : Bytes) : Option Bytes :=
  match storage.cipher with
  | none => some data
  | some cipher =>
    if h : nonceLen + tagLen ≤ data.length then
      let rest := data.drop nonceLen
      cipher.decrypt (nonceOf data h) (rest.take (rest.length - tagLen))
        (rest.drop (rest.length - tagLen))
    else none

/-- `SecureStorage::decrypt_in_place`: the payload is moved to the front of the buffer, the tag is
read at its old place, and the buffer is cut. -/
def decryptInPlace (data : Bytes) : Option Bytes :=
  match storage.cipher with
  | none => some data
  | some cipher =>
    if h : nonceLen + tagLen ≤ data.length then
      let payloadLen := data.length - nonceLen - tagLen
      let payload := (data.drop nonceLen).take payloadLen
      -- `copy_within` leaves everything from `payloadLen` on as it was
      let moved := payload ++ data.drop payloadLen
      cipher.decrypt (nonceOf data h) (moved.take payloadLen) (moved.drop (nonceLen + payloadLen))
    else none

/-- `SecureStorage::decode`. -/
def decode (data : Bytes) : Option Bytes := (storage.decrypt data).bind storage.decompress

/-- `SecureStorage::decode_owned`. -/
def decodeOwned (data : Bytes) : Option Bytes :=
  (storage.decryptInPlace data).bind storage.decompress

variable {storage}

theorem sealPayload_ne_nil {nonce : Nonce} {payload out : Bytes} (hpayload : payload ≠ [])
    (h : storage.sealPayload nonce payload = some out) : out ≠ [] := by
  unfold sealPayload at h
  split at h
  · cases h
    exact hpayload
  · rw [Option.map_eq_some_iff] at h
    obtain ⟨⟨c, tag⟩, _, rfl⟩ := h
    have hlen := nonce.property
    intro hnil
    simp only [List.append_eq_nil_iff] at hnil
    rw [hnil.1.1] at hlen
    simp [nonceLen] at hlen

/-- A ciphertext is taken apart at the nonce and the tag. -/
theorem decrypt_append {cipher : Cipher} (hcipher : storage.cipher = some cipher) (nonce : Nonce)
    (c : Bytes) {tag : Bytes} (htag : tag.length = tagLen) :
    storage.decrypt (nonce.val ++ c ++ tag) = cipher.decrypt nonce c tag := by
  have hnonce := nonce.property
  have hlen : nonceLen + tagLen ≤ (nonce.val ++ c ++ tag).length := by
    simp only [List.length_append, hnonce, htag]
    omega
  have hdrop : (nonce.val ++ c ++ tag).drop nonceLen = c ++ tag := by
    rw [List.append_assoc]
    exact List.drop_left' hnonce
  have hnonceOf : nonceOf (nonce.val ++ c ++ tag) hlen = nonce := by
    apply Subtype.ext
    simp only [nonceOf, List.append_assoc]
    exact List.take_left' hnonce
  have hcut : (c ++ tag).length - tagLen = c.length := by
    rw [List.length_append, htag]
    omega
  unfold decrypt
  simp only [hcipher, dif_pos hlen, hdrop, hnonceOf, hcut, List.take_left, List.drop_left]

theorem decrypt_sealPayload {nonce : Nonce} {payload out : Bytes}
    (h : storage.sealPayload nonce payload = some out) : storage.decrypt out = some payload := by
  unfold sealPayload at h
  split at h
  · rename_i hcipher
    cases h
    simp only [decrypt, hcipher]
  · rename_i cipher hcipher
    obtain ⟨⟨c, tag⟩, henc, rfl⟩ := Option.map_eq_some_iff.mp h
    rw [decrypt_append hcipher nonce c (cipher.length_tag henc)]
    exact cipher.decrypt_encrypt henc

/-- Moving the payload inside the buffer changes nothing: both ways of decrypting agree. -/
theorem decryptInPlace_eq_decrypt (data : Bytes) :
    storage.decryptInPlace data = storage.decrypt data := by
  unfold decryptInPlace decrypt
  split
  · rfl
  · split
    · rename_i hlen
      have hpayload : ((data.drop nonceLen).take (data.length - nonceLen - tagLen)).length =
          data.length - nonceLen - tagLen := by
        rw [List.length_take, List.length_drop]
        omega
      have htag : (((data.drop nonceLen).take (data.length - nonceLen - tagLen)) ++
          data.drop (data.length - nonceLen - tagLen)).drop
            (nonceLen + (data.length - nonceLen - tagLen)) =
          (data.drop nonceLen).drop ((data.drop nonceLen).length - tagLen) := by
        rw [List.drop_append, hpayload, List.drop_eq_nil_of_le (by rw [hpayload]; omega),
          List.nil_append, List.drop_drop, List.drop_drop, List.length_drop]
        congr 1
        omega
      simp only [htag]
      rw [List.take_append_of_le_length (by rw [hpayload]), List.take_of_length_le (by rw [hpayload]),
        List.length_drop]
    · rfl

theorem encode_ne_nil {nonce : Nonce} {x y : Bytes} (h : storage.encode nonce x = some y) :
    y ≠ [] := by
  rw [encode, Option.bind_eq_some_iff] at h
  obtain ⟨z, hz, hseal⟩ := h
  exact sealPayload_ne_nil (storage.compress_ne_nil hz) hseal

/-- What was encoded decodes to the plaintext. -/
theorem decode_encode {nonce : Nonce} {x y : Bytes} (h : storage.encode nonce x = some y) :
    storage.decode y = some x := by
  rw [encode, Option.bind_eq_some_iff] at h
  obtain ⟨z, hz, hseal⟩ := h
  rw [decode, decrypt_sealPayload hseal]
  exact storage.decompress_compress hz

theorem decodeOwned_eq_decode (data : Bytes) : storage.decodeOwned data = storage.decode data := by
  rw [decodeOwned, decode, decryptInPlace_eq_decrypt]

end SecureStorage

/-- What an authenticated cipher and a compressed format with a header promise: the end of an
encoded text without its start does not decode. -/
def SecureStorage.RejectsSuffixes (storage : SecureStorage) : Prop :=
  ∀ {nonce x y}, storage.encode nonce x = some y → ∀ k, 0 < k → storage.decode (y.drop k) = none

/-! ## Concrete storages -/

/-- A storage without encryption whose compressor only writes a header byte. -/
def headerStorage : SecureStorage where
  compress := fun x => some (1 :: x)
  decompress := List.tail?
  cipher := none
  compress_ne_nil := by
    intro x y h
    cases h
    exact List.cons_ne_nil _ _
  decompress_compress := by
    intro x y h
    cases h
    rfl

/-- The tag of a key: its first bytes. -/
def keyTag (key : Bytes) : Bytes := (key ++ List.replicate tagLen 0).take tagLen

/-- A storage whose cipher only puts the tag of its key behind the data. -/
def keyedStorage (key : Bytes) : SecureStorage :=
  { headerStorage with
    cipher := some
      { encrypt := fun _ x => some (x, keyTag key)
        decrypt := fun _ c tag => if tag = keyTag key then some c else none
        length_tag := by
          rintro n x c t ⟨⟩
          simp only [keyTag, List.length_take, List.length_append, List.length_replicate]
          omega
        decrypt_encrypt := by
          rintro n x c t ⟨⟩
          exact if_pos rfl } }

/-- Another key opens nothing, or what was sealed. -/
theorem authentic_keyedStorage {key key' : Bytes} {nonce : Nonce} {x out y : Bytes}
    (h : (keyedStorage key).sealPayload nonce x = some out)
    (h' : (keyedStorage key').decrypt out = some y) : y = x := by
  have hout : out = nonce.val ++ x ++ keyTag key := (Option.some.inj h).symm
  have htag : (keyTag key).length = tagLen := by
    simp only [keyTag, List.length_take, List.length_append, List.length_replicate]
    omega
  have hopen : (if keyTag key = keyTag key' then some x else none) = some y := by
    rw [← h', hout, SecureStorage.decrypt_append rfl nonce x htag]
  split at hopen
  · exact (Option.some.inj hopen).symm
  · cases hopen

/-- A byte in unary. -/
def unary (b : UInt8) : Bytes := List.replicate b.toNat 1 ++ [2]

/-- Read bytes in unary; `acc` is what was read of the first one. -/
def ofUnary : Nat → Bytes → Option Bytes
  | acc, [] => if acc = 0 then some [] else none
  | acc, b :: bs =>
    if b = 1 then ofUnary (acc + 1) bs
    else if b = 2 then (ofUnary 0 bs).map fun out => UInt8.ofNat acc :: out
    else none

theorem ofUnary_replicate (n acc : Nat) (bs : Bytes) :
    ofUnary acc (List.replicate n 1 ++ 2 :: bs) =
      (ofUnary 0 bs).map fun out => UInt8.ofNat (acc + n) :: out := by
  induction n generalizing acc with
  | zero => rfl
  | succ n ih =>
    rw [List.replicate_succ, List.cons_append, ofUnary, if_pos rfl, ih, Nat.add_assoc,
      Nat.add_comm 1]

theorem ofUnary_flatMap (bs : Bytes) : ofUnary 0 (bs.flatMap unary) = some bs := by
  induction bs with
  | nil => rfl
  | cons b bs ih =>
    rw [List.flatMap_cons, unary, List.append_assoc, List.singleton_append, ofUnary_replicate, ih,
      Option.map_some, Nat.zero_add, UInt8.ofNat_toNat]

/-- A storage without encryption that writes bytes in unary behind a mark that occurs nowhere else.
-/
def markedStorage : SecureStorage where
  compress := fun x => some (0 :: x.flatMap unary)
  decompress := fun
    | 0 :: bs => ofUnary 0 bs
    | _ => none
  cipher := none
  compress_ne_nil := by
    intro x y h
    cases h
    exact List.cons_ne_nil _ _
  decompress_compress := by
    intro x y h
    cases h
    exact ofUnary_flatMap x

theorem encode_markedStorage (nonce : Nonce) (x : Bytes) :
    markedStorage.encode nonce x = some (0 :: x.flatMap unary) :=
  rfl

/-- Without its mark nothing is read. -/
theorem rejectsSuffixes_markedStorage : markedStorage.RejectsSuffixes := by
  intro nonce x y h k hk
  cases h
  obtain ⟨k, rfl⟩ : ∃ j, k = j + 1 := ⟨k - 1, by omega⟩
  rw [List.drop_succ_cons]
  cases hrest : (x.flatMap unary).drop k with
  | nil => rfl
  | cons b bs =>
    have hmem : b ∈ x.flatMap unary := List.mem_of_mem_drop (hrest ▸ List.mem_cons_self)
    obtain ⟨a, -, hb⟩ := List.mem_flatMap.mp hmem
    rcases List.mem_append.mp hb with hone | htwo
    · rw [List.eq_of_mem_replicate hone]
      rfl
    · rw [List.mem_singleton.mp htwo]
      rfl

/-- The nonce of the concrete runs. -/
def sampleNonce : Nonce := ⟨List.replicate nonceLen 0, List.length_replicate⟩

end Mapache
