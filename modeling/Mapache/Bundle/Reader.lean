import Mapache.Bundle.Writer

/-!
# Reading a bundle

`BundleReader` of `bundle/reader.rs`. The trailer is found from the end of the file, the index from
the trailer and a blob from its entry. A bundle that was written by any calls of `save_blob` and
then finalized opens with its password, and each of its blobs loads (`round_trip`).
-/

set_option autoImplicit false

namespace Mapache

open Lib

/-- The errors of the reader. -/
inductive BundleError where
  | io
  | format (message : String)
  | crypto (message : String)
  | integrity (message : String)
  | notInIndex (id : ID)
  deriving DecidableEq

/-- `BundleReader`. -/
structure BundleReader where
  file : Bytes
  storage : SecureStorage
  index : BundleIndex
  indexMap : Table ID Nat
  trailer : BundleTrailer

namespace BundleReader

/-- A value, or an error where there is none. -/
def orError {α : Type} (e : BundleError) : Option α → Except BundleError α
  | some a => .ok a
  | none => .error e

/-- `seek` from the start, then `read_exact`. -/
def readExact (file : Bytes) (pos len : Nat) : Except BundleError Bytes :=
  if len ≤ file.length - pos then .ok ((file.drop pos).take len) else .error .io

/-- `seek` from the end, which fails before the start of the file, then `read_exact`. -/
def readFromEnd (file : Bytes) (back len : Nat) : Except BundleError Bytes :=
  if back ≤ file.length then readExact file (file.length - back) len else .error .io

/-- The map from the IDs of the index to positions. A later entry replaces an earlier one. -/
def indexMapOf (entries : List BundleIndexEntry) : Table ID Nat :=
  entries.zipIdx.foldl (fun m e => m.insert e.1.id e.2) ∅

/-- `DEFAULT_COMPRESSION`, which the storage of a reader has but does not use. -/
def defaultCompression : Int := 3

/-- `BundleReader::open`. -/
def openBundle (crypto : BundleCrypto) (file : Bytes) (password : String) :
    Except BundleError BundleReader := do
  let headerBytes ← readExact file 0 bundleHeaderSize
  let header ← orError (.format "invalid bundle format: failed to parse header")
    (BundleHeader.fromBinary headerBytes)
  if header.magic ≠ bundleMagicStart then
    throw (.format "invalid bundle format: invalid magic start (not a mapache bundle)")
  let params ← orError (.format "invalid bundle format: Argon2 parameters are invalid")
    (crypto.buildParams ⟨header.argon2M.toNat, header.argon2T.toNat, header.argon2P.toNat⟩)
  let key ← orError (.crypto "failed to derive key from password")
    (crypto.deriveKey password header.salt.val params)
  let storage := crypto.storage defaultCompression key
  let sizeBytes ← readFromEnd file bundleTrailerSizeLen bundleTrailerSizeLen
  let encryptedTrailerSize := ofLittleEndian sizeBytes
  let encryptedTrailer ← readFromEnd file (bundleTrailerSizeLen + encryptedTrailerSize)
    encryptedTrailerSize
  let decryptedTrailer ← orError
    (.crypto "failed to decrypt bundle trailer: incorrect password or corrupted data")
    (storage.decrypt encryptedTrailer)
  let trailer ← orError (.format "invalid bundle format: failed to parse trailer")
    (BundleTrailer.fromBinary decryptedTrailer)
  if trailer.magicEnd ≠ bundleMagicEnd then
    throw (.format "invalid bundle format: invalid magic end")
  let encryptedIndex ← readExact file trailer.indexOffset.toNat trailer.indexLen.toNat
  let decryptedIndex ← orError
    (.crypto "failed to decrypt bundle index: incorrect password or corrupted data")
    (storage.decrypt encryptedIndex)
  let index ← orError (.format "invalid bundle format: failed to parse index")
    (BundleIndex.fromBinary decryptedIndex)
  return { file, storage, index, indexMap := indexMapOf index.entries, trailer }

/-- `BundleReader::load_blob`. -/
def loadBlob (r : BundleReader) (id : ID) : Except BundleError Bytes := do
  let idx ← orError (.notInIndex id) (r.indexMap.lookup id)
  -- the map has positions of the index only, so the slice index is in bounds
  let entry ← orError .io r.index.entries[idx]?
  let encodedData ← readExact r.file entry.offset.toNat entry.length.toNat
  let data ← orError (.crypto "failed to decode blob data") (r.storage.decode encodedData)
  if data.length ≠ entry.rawLength.toNat then
    throw (.integrity
      s!"decoded blob length mismatch: expected {entry.rawLength.toNat}, got {data.length}")
  return data

/-! ## Positions -/

/-- What stands between two parts of a file is read at the end of the first one. -/
theorem readExact_append (pre mid post : Bytes) :
    readExact (pre ++ (mid ++ post)) pre.length mid.length = .ok mid := by
  have hlen : mid.length ≤ (pre ++ (mid ++ post)).length - pre.length := by
    simp only [List.length_append]
    omega
  rw [readExact, if_pos hlen, List.drop_left, List.take_left]

theorem readFromEnd_append (pre mid post : Bytes) :
    readFromEnd (pre ++ (mid ++ post)) (post.length + mid.length) mid.length = .ok mid := by
  have hback : post.length + mid.length ≤ (pre ++ (mid ++ post)).length := by
    simp only [List.length_append]
    omega
  have hpos : (pre ++ (mid ++ post)).length - (post.length + mid.length) = pre.length := by
    simp only [List.length_append]
    omega
  rw [readFromEnd, if_pos hback, hpos, readExact_append]

/-! ## The map of the index -/

theorem lookup_foldl_of_notMem {es : List (BundleIndexEntry × Nat)} {m : Table ID Nat} {id : ID}
    (h : id ∉ es.map fun e => e.1.id) :
    (es.foldl (fun m e => m.insert e.1.id e.2) m).lookup id = m.lookup id := by
  induction es generalizing m with
  | nil => rfl
  | cons e es ih =>
    rw [List.map_cons, List.mem_cons, not_or] at h
    rw [List.foldl_cons, ih h.2, Table.lookup_insert_eq_ite, if_neg h.1]

theorem lookup_foldl_of_mem {es : List (BundleIndexEntry × Nat)} {m : Table ID Nat}
    {e : BundleIndexEntry × Nat} (hnodup : (es.map fun e => e.1.id).Nodup) (h : e ∈ es) :
    (es.foldl (fun m e => m.insert e.1.id e.2) m).lookup e.1.id = some e.2 := by
  induction es generalizing m with
  | nil => cases h
  | cons e' es ih =>
    rw [List.map_cons, List.nodup_cons] at hnodup
    rw [List.foldl_cons]
    rcases List.mem_cons.mp h with rfl | hmem
    · rw [lookup_foldl_of_notMem hnodup.1, Table.lookup_insert_eq_ite, if_pos rfl]
    · exact ih hnodup.2 hmem

section

variable {entries : List BundleIndexEntry}

theorem map_id_zipIdx : (entries.zipIdx.map fun e => e.1.id) = entries.map BundleIndexEntry.id := by
  have h : (fun e : BundleIndexEntry × Nat => e.1.id) = BundleIndexEntry.id ∘ Prod.fst := rfl
  rw [h, ← List.map_map, List.zipIdx_map_fst]

theorem lookup_indexMapOf_of_notMem {id : ID} (h : id ∉ entries.map BundleIndexEntry.id) :
    (indexMapOf entries).lookup id = none := by
  rw [indexMapOf, lookup_foldl_of_notMem (by rw [map_id_zipIdx]; exact h), AList.lookup_empty]

/-- An index without repetitions maps each ID to the position of its entry. -/
theorem lookup_indexMapOf {i : Nat} {e : BundleIndexEntry}
    (hnodup : (entries.map BundleIndexEntry.id).Nodup) (h : entries[i]? = some e) :
    (indexMapOf entries).lookup e.id = some i :=
  lookup_foldl_of_mem (e := (e, i)) (by rw [map_id_zipIdx]; exact hnodup)
    (List.mk_mem_zipIdx_iff_getElem?.mpr h)

end

/-! ## The round trip -/

section RoundTrip

open BundleWriter

variable {crypto : BundleCrypto} {password : String} {level : Int} {salt : FixedBytes 32}
  {storage : SecureStorage} {w w₀ : BundleWriterInner} {draws : FinalizeDraws} {root : ID}
    {file : Bytes}

/-- What a finished bundle consists of. -/
theorem finalize_spec (h : finalize storage draws w root = some file) :
    ∃ encryptedIndex rest encryptedTrailer, ∃ trailer : BundleTrailer,
      storage.sealPayload draws.indexNonce w.index.toBinary = some encryptedIndex ∧
      storage.sealPayload draws.trailerNonce trailer.toBinary = some encryptedTrailer ∧
      trailer.rootTree = root ∧ trailer.indexOffset = UInt64.ofNat w.file.length ∧
      trailer.indexLen = UInt32.ofNat encryptedIndex.length ∧ trailer.magicEnd = bundleMagicEnd ∧
      file = w.file ++ (encryptedIndex ++ (rest ++ (encryptedTrailer ++
        littleEndian 4 (UInt32.ofNat encryptedTrailer.length).toNat))) := by
  obtain ⟨encryptedIndex, hindex, h⟩ := Option.bind_eq_some_iff.mp h
  obtain ⟨encryptedManifest, -, h⟩ := Option.bind_eq_some_iff.mp h
  obtain ⟨encryptedTrailer, htrailer, h⟩ := Option.bind_eq_some_iff.mp h
  refine ⟨encryptedIndex, encryptedManifest, encryptedTrailer, _, hindex, htrailer, rfl, rfl, rfl,
    rfl, ?_⟩
  rw [← Option.some.inj h, putU32]
  simp only [List.append_assoc]

/-- The header of a new bundle gives the key of its writer back. -/
theorem new_spec (h : BundleWriter.new crypto password level salt = some (storage, w)) :
    ∃ key, ∃ header : BundleHeader, storage = crypto.storage level key ∧
      w = ⟨header.toBinary, ⟨[]⟩, ∅⟩ ∧ header.magic = bundleMagicStart ∧
      (⟨header.argon2M.toNat, header.argon2T.toNat, header.argon2P.toNat⟩ : Argon2Params) =
        crypto.defaultParams ∧
      crypto.deriveKey password header.salt.val crypto.defaultParams = some key := by
  obtain ⟨key, hkey, h⟩ := Option.map_eq_some_iff.mp h
  obtain ⟨hm, ht, hp⟩ := crypto.fits_default
  cases h
  refine ⟨key, _, rfl, rfl, rfl, ?_, hkey⟩
  simp only [UInt32.toNat_ofNat', Nat.mod_eq_of_lt hm, Nat.mod_eq_of_lt ht, Nat.mod_eq_of_lt hp]

/-- A file with the parts of a bundle opens, where its index has fewer than 2^32 bytes and begins
before 2^64. -/
theorem openBundle_spec
    (hnew : BundleWriter.new crypto password level salt = some (storage, w₀))
    (hpre : ∃ blobs, w.file = w₀.file ++ blobs) (hsize : w.file.length < 2 ^ 64)
    (hindex : w.index.toBinary.length + (nonceLen + tagLen) < 2 ^ 32)
    (h : finalize storage draws w root = some file) :
    ∃ reader key, openBundle crypto file password = .ok reader ∧
      storage = crypto.storage level key ∧ reader.storage = crypto.storage defaultCompression key ∧
      reader.file = file ∧ (∃ post, file = w.file ++ post) ∧ reader.trailer.rootTree = root ∧
      reader.index = w.index ∧ reader.indexMap = indexMapOf w.index.entries := by
  obtain ⟨key, header, rfl, rfl, hmagic, hparams, hkey⟩ := new_spec hnew
  obtain ⟨blobs, hpre⟩ := hpre
  obtain ⟨encryptedIndex, manifest, encryptedTrailer, trailer, hsealIndex, hsealTrailer, hroot,
    hoffset,
    hlen, hmagicEnd, hfile⟩ := finalize_spec h
  have hindexLen := BundleCrypto.length_sealPayload hsealIndex
  have htrailerLen := BundleCrypto.length_sealPayload hsealTrailer
  rw [BundleTrailer.length_toBinary] at htrailerLen
  -- the header stands at the start
  have hheader : readExact file 0 bundleHeaderSize = .ok header.toBinary := by
    rw [hfile, hpre, List.append_assoc, ← header.length_toBinary]
    exact readExact_append [] _ _
  have hparse := BundleHeader.fromBinary_toBinary header []
  rw [List.append_nil] at hparse
  -- the trailer and its length stand at the end
  have hsizeNat : (UInt32.ofNat encryptedTrailer.length).toNat = encryptedTrailer.length := by
    rw [UInt32.toNat_ofNat', htrailerLen]
    rfl
  have hsizeBytes : readFromEnd file bundleTrailerSizeLen bundleTrailerSizeLen =
      .ok (littleEndian 4 encryptedTrailer.length) := by
    have hread := readFromEnd_append (w.file ++ (encryptedIndex ++ (manifest ++ encryptedTrailer)))
      (littleEndian 4 encryptedTrailer.length) []
    simp only [List.append_nil, List.append_assoc, List.length_nil, Nat.zero_add,
      length_littleEndian] at hread
    rw [hfile, hsizeNat]
    exact hread
  have hvalue : ofLittleEndian (littleEndian 4 encryptedTrailer.length) = encryptedTrailer.length :=
    ofLittleEndian_littleEndian (by rw [htrailerLen]; decide)
  have htrailer : readFromEnd file (bundleTrailerSizeLen + encryptedTrailer.length)
      encryptedTrailer.length = .ok encryptedTrailer := by
    have hread := readFromEnd_append (w.file ++ (encryptedIndex ++ manifest)) encryptedTrailer
      (littleEndian 4 encryptedTrailer.length)
    simp only [List.append_assoc, length_littleEndian] at hread
    rw [hfile, hsizeNat]
    exact hread
  have hparseTrailer := BundleTrailer.fromBinary_toBinary trailer []
  rw [List.append_nil] at hparseTrailer
  -- the trailer says where the index is
  have hindexOffset : trailer.indexOffset.toNat = w.file.length := by
    rw [hoffset, UInt64.toNat_ofNat', Nat.mod_eq_of_lt hsize]
  have hindexLen' : trailer.indexLen.toNat = encryptedIndex.length := by
    rw [hlen, UInt32.toNat_ofNat', Nat.mod_eq_of_lt (by omega)]
  have hreadIndex : readExact file trailer.indexOffset.toNat trailer.indexLen.toNat =
      .ok encryptedIndex := by
    rw [hindexOffset, hindexLen', hfile]
    exact readExact_append _ _ _
  have hcount : w.index.entries.length < 2 ^ 64 := by
    rw [BundleIndex.length_toBinary, BundleIndexEntry.binarySize] at hindex
    omega
  have hparseIndex := BundleIndex.fromBinary_toBinary hcount []
  rw [List.append_nil] at hparseIndex
  refine ⟨⟨file, crypto.storage defaultCompression key, w.index, indexMapOf w.index.entries, trailer⟩,
    key, ?_, rfl, rfl, rfl, ⟨_, hfile⟩, hroot, rfl, rfl⟩
  simp only [openBundle, hheader, hparse, orError, bind, Except.bind, hmagic, ne_eq, not_true_eq_false,
    if_false, hparams, crypto.build_default, hkey, hsizeBytes, hvalue, htrailer,
    BundleCrypto.decrypt_sealPayload hsealTrailer, hparseTrailer, hmagicEnd, hreadIndex,
    BundleCrypto.decrypt_sealPayload hsealIndex, hparseIndex]
  rfl

/-- A blob whose bytes stand where its entry says loads. -/
theorem loadBlob_of_entry {reader : BundleReader} {key : FixedBytes 32} {pre post : Bytes}
    {b : EncodedBlob} {nonce : Nonce} {i : Nat}
    (hstorage : reader.storage = crypto.storage defaultCompression key)
    (hencoded : (crypto.storage level key).encode nonce b.data = some b.encoded)
    (hfile : reader.file = pre ++ (b.encoded ++ post))
    (hentry : reader.index.entries[i]? = some (entryAt pre.length b))
    (hmap : reader.indexMap = indexMapOf reader.index.entries)
    (hnodup : (reader.index.entries.map BundleIndexEntry.id).Nodup)
    (hfits : b.data.length < 2 ^ 32 ∧ b.encoded.length < 2 ^ 32) (hsize : pre.length < 2 ^ 64) :
    reader.loadBlob b.id = .ok b.data := by
  have hlookup : reader.indexMap.lookup b.id = some i := by
    rw [hmap]
    exact lookup_indexMapOf hnodup hentry
  have hoffset : (UInt64.ofNat pre.length).toNat = pre.length := by
    rw [UInt64.toNat_ofNat', Nat.mod_eq_of_lt hsize]
  have hlength : (UInt32.ofNat b.encoded.length).toNat = b.encoded.length := by
    rw [UInt32.toNat_ofNat', Nat.mod_eq_of_lt hfits.2]
  have hraw : (UInt32.ofNat b.data.length).toNat = b.data.length := by
    rw [UInt32.toNat_ofNat', Nat.mod_eq_of_lt hfits.1]
  have hread : readExact reader.file pre.length b.encoded.length = .ok b.encoded := by
    rw [hfile]
    exact readExact_append _ _ _
  simp only [loadBlob, hlookup, hentry, orError, bind, Except.bind, entryAt, hoffset, hlength, hread,
    hstorage, BundleCrypto.decode_encode hencoded, hraw, ne_eq, not_true_eq_false, if_false]
  rfl

/-- A blob of an open bundle loads. -/
theorem loadBlob_spec {reader : BundleReader} {key : FixedBytes 32} {header post : Bytes}
    {pre suf : List EncodedBlob} {b : EncodedBlob} {nonce : Nonce}
    (hstorage : reader.storage = crypto.storage defaultCompression key)
    (hencoded : (crypto.storage level key).encode nonce b.data = some b.encoded)
    (hfile : reader.file = header ++ BundleWriter.bytesOf (pre ++ b :: suf) ++ post)
    (hindex : reader.index.entries = entriesFrom header.length (pre ++ b :: suf))
    (hmap : reader.indexMap = indexMapOf reader.index.entries)
    (hnodup : ((pre ++ b :: suf).map EncodedBlob.id).Nodup)
    (hfits : b.data.length < 2 ^ 32 ∧ b.encoded.length < 2 ^ 32)
    (hsize : header.length + (BundleWriter.bytesOf (pre ++ b :: suf)).length < 2 ^ 64) :
    reader.loadBlob b.id = .ok b.data := by
  have hbytes : BundleWriter.bytesOf (pre ++ b :: suf) = BundleWriter.bytesOf pre ++
      (b.encoded ++ BundleWriter.bytesOf suf) := by
    rw [BundleWriter.bytesOf, List.flatMap_append, List.flatMap_cons]
    rfl
  have hentry : reader.index.entries[pre.length]? =
      some (entryAt (header ++ BundleWriter.bytesOf pre).length b) := by
    rw [hindex, List.length_append]
    exact getElem?_entriesFrom _ _ _ _
  have hparts : reader.file =
      (header ++ BundleWriter.bytesOf pre) ++ (b.encoded ++ (BundleWriter.bytesOf suf ++ post)) := by
    rw [hfile, hbytes]
    simp only [List.append_assoc]
  refine loadBlob_of_entry hstorage hencoded hparts hentry hmap ?_ hfits ?_
  · rw [hindex, map_id_entriesFrom]
    exact hnodup
  · rw [hbytes, List.length_append] at hsize
    rw [List.length_append]
    omega

/-- **Bundles round-trip.** Any threads save any blobs, in any order, and `finalize` succeeds. Where
the blobs, as they were given and as they are stored, and the stored index are shorter than 4 GiB,
the bundle opens with its password; its trailer has the root, its index has each saved ID once and
no other one, and a saved ID loads the blob of the first call for it, as the calls got the lock. -/
theorem round_trip {ι : Type*} [DecidableEq ι] {fromContent : Bytes → ID} {s : Shared ι}
    {ls : List (Label ι)} (hnew : BundleWriter.new crypto password level salt = some (storage, w₀))
    (hrun : Run (BundleWriter.Step storage fromContent) (start w₀) ls s)
    (hblobs : ∀ b ∈ s.returned, b.data.length < 2 ^ 32 ∧ b.encoded.length < 2 ^ 32)
    (hindex : s.inner.index.toBinary.length + (nonceLen + tagLen) < 2 ^ 32)
    (hfinalize : finalize storage draws s.inner root = some file) :
    ∃ reader, openBundle crypto file password = .ok reader ∧ reader.trailer.rootTree = root ∧
      (∀ id, (reader.index.entries.map BundleIndexEntry.id).count id =
        if id ∈ s.returned.map EncodedBlob.id then 1 else 0) ∧
      ∀ id, reader.loadBlob id =
        match s.returned.find? fun b => b.id = id with
        | some b => .ok b.data
        | none => .error (.notInIndex id) := by
  obtain ⟨-, header, -, hw₀, -⟩ := new_spec hnew
  obtain ⟨bs, hlaid, hencoded⟩ := Laid.run (rfl : w₀.file = w₀.file) (by rw [hw₀])
    (by rw [hw₀]) hrun
  have hheader : w₀.file.length = 58 := by
    rw [hw₀]
    exact header.length_toBinary
  have hcount : bs.length * 49 < 2 ^ 32 := by
    rw [BundleIndex.length_toBinary, hlaid.index, length_entriesFrom, BundleIndexEntry.binarySize]
      at hindex
    omega
  have hbytes := length_bytesOf_le fun b hb => (hblobs b (hlaid.sub b hb)).2
  have hsize : w₀.file.length + (BundleWriter.bytesOf bs).length < 2 ^ 64 := by omega
  obtain ⟨reader, key, hopen, rfl, hstorage, hfile, ⟨post, hpost⟩, hroot, hrindex, hmap⟩ :=
    openBundle_spec hnew ⟨_, hlaid.file⟩ (by rw [hlaid.file, List.length_append]; exact hsize) hindex
      hfinalize
  have hentries : reader.index.entries = entriesFrom w₀.file.length bs := by rw [hrindex, hlaid.index]
  refine ⟨reader, hopen, hroot, fun id => ?_, fun id => ?_⟩
  · have hmem : id ∈ bs.map EncodedBlob.id ↔ id ∈ s.returned.map EncodedBlob.id := by
      rw [mem_map_id, mem_map_id, hlaid.first]
    rw [hentries, map_id_entriesFrom, hlaid.nodup.count, if_congr hmem rfl rfl]
  · rw [← hlaid.first]
    cases hfind : bs.find? fun b => b.id = id with
    | none =>
      have hout : id ∉ bs.map EncodedBlob.id := by
        rw [mem_map_id, hfind]
        rintro ⟨b, ⟨⟩⟩
      have hlookup : reader.indexMap.lookup id = none := by
        rw [hmap, hlaid.index]
        exact lookup_indexMapOf_of_notMem (by rw [map_id_entriesFrom]; exact hout)
      simp only [loadBlob, hlookup, orError, bind, Except.bind]
    | some b =>
      have hb := List.mem_of_find?_eq_some hfind
      have hid : b.id = id := by simpa using List.find?_some hfind
      obtain ⟨nonce, hnonce⟩ := hencoded b hb
      obtain ⟨pre, suf, rfl⟩ := List.append_of_mem hb
      have hparts : reader.file = w₀.file ++ BundleWriter.bytesOf (pre ++ b :: suf) ++ post := by
        rw [hfile, hpost, hlaid.file]
      rw [← hid]
      exact loadBlob_spec hstorage hnonce hparts hentries (by rw [hmap, hrindex]) hlaid.nodup
        (hblobs b (hlaid.sub b hb)) hsize

/-! ## A concrete bundle -/

/-- Libraries that mark what they compress and put an empty tag behind what they encrypt. -/
def sampleBundleCrypto : BundleCrypto where
  defaultParams := ⟨19456, 2, 1⟩
  buildParams := some
  deriveKey := fun _ salt _ => getArray 32 salt |>.map Prod.fst
  compress := fun _ => headerStorage.compress
  decompress := headerStorage.decompress
  cipher := fun _ =>
    { encrypt := fun _ x => some (x, List.replicate tagLen 0)
      decrypt := fun _ c _ => some c
      length_tag := by
        rintro n x c t ⟨⟩
        rfl
      decrypt_encrypt := by
        rintro n x c t ⟨⟩
        rfl }
  fits_default := by decide
  build_default := rfl
  compress_ne_nil := headerStorage.compress_ne_nil
  decompress_compress := headerStorage.decompress_compress
  length_encrypt := by
    rintro key n x c t ⟨⟩
    rfl

/-- Two threads save blobs under one ID; the second to get the lock is left out. -/
theorem round_trip_two_threads :
    ∃ (s : Shared Bool) (ls : List (Label Bool)) (storage : SecureStorage) (w₀ : BundleWriterInner)
      (draws : FinalizeDraws) (file : Bytes),
      BundleWriter.new sampleBundleCrypto "pw" 3 ⟨List.replicate 32 0, rfl⟩ = some (storage, w₀) ∧
        Run (BundleWriter.Step storage fun _ => 0) (start w₀) ls s ∧ s.returned.length = 2 ∧
        finalize storage draws s.inner 9 = some file ∧
        ∃ reader, openBundle sampleBundleCrypto file "pw" = .ok reader ∧
          reader.trailer.rootTree = 9 ∧ reader.loadBlob 5 = .ok [7] ∧
          reader.loadBlob 6 = .error (.notInIndex 6) := by
  let key : FixedBytes 32 := ⟨List.replicate 32 0, rfl⟩
  let draws : FinalizeDraws := ⟨sampleNonce, sampleNonce, sampleNonce, 0, 0, 0⟩
  obtain ⟨header, hnew⟩ : ∃ header, BundleWriter.new sampleBundleCrypto "pw" 3 key =
      some (sampleBundleCrypto.storage 3 key, ⟨header, ⟨[]⟩, ∅⟩) := ⟨_, rfl⟩
  obtain ⟨s, ls, hrun, hreturned, hindex⟩ : ∃ (s : Shared Bool) (ls : List (Label Bool)),
      Run (BundleWriter.Step (sampleBundleCrypto.storage 3 key) fun _ => 0)
        (start ⟨header, ⟨[]⟩, ∅⟩) ls s ∧
        s.returned = [⟨5, .data, [7], sampleNonce.val ++ [1, 7] ++ List.replicate tagLen 0⟩,
          ⟨5, .tree, [8], sampleNonce.val ++ [1, 8] ++ List.replicate tagLen 0⟩] ∧
        s.inner.index.entries.length = 1 := by
    exact ⟨_, _, (((Run.nil.snoc (.encode (t := true) (b := ⟨.data, [7], .withID 5⟩)
      (n := sampleNonce) rfl rfl)).snoc (.encode (t := false) (b := ⟨.tree, [8], .withID 5⟩)
      (n := sampleNonce) rfl rfl)).snoc (.append (t := true) rfl)).snoc (.append (t := false) rfl),
      rfl, rfl⟩
  have hfits : s.inner.index.toBinary.length + (nonceLen + tagLen) < 2 ^ 32 := by
    rw [BundleIndex.length_toBinary, hindex]
    decide
  have hblobs : ∀ b ∈ s.returned, b.data.length < 2 ^ 32 ∧ b.encoded.length < 2 ^ 32 := by
    rw [hreturned]
    decide
  obtain ⟨file, hfinalize⟩ : ∃ file, finalize (sampleBundleCrypto.storage 3 key) draws s.inner 9 =
      some file := ⟨_, rfl⟩
  obtain ⟨reader, hopen, hroot, -, hload⟩ := round_trip hnew hrun hblobs hfits hfinalize
  refine ⟨s, ls, _, _, draws, file, hnew, hrun, by rw [hreturned]; rfl, hfinalize, reader, hopen,
    hroot,
    ?_, ?_⟩
  · rw [hload, hreturned]
    rfl
  · rw [hload, hreturned]
    rfl

end RoundTrip

end BundleReader

end Mapache
