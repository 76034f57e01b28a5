import Mapache.Utils.Binary

/-!
# The format of a bundle

The four records of `bundle/format.rs`: the header, the trailer, an entry of the index, and the
index. Each codec writes its fields one after the other and reads them in the same order; what one
of them has written is read back, whatever bytes follow it (`BundleHeader.fromBinary_toBinary` and
so on).
-/

set_option autoImplicit false

namespace Mapache

open Lib

/-- `BUNDLE_MAGIC_START`. -/
def bundleMagicStart : FixedBytes 12 := ⟨[77, 65, 80, 65, 67, 72, 69, 95, 65, 82, 67, 0], rfl⟩

/-- `BUNDLE_MAGIC_END`. -/
def bundleMagicEnd : FixedBytes 12 := ⟨[77, 65, 80, 65, 67, 72, 69, 95, 69, 78, 68, 0], rfl⟩

/-- `BUNDLE_VERSION`. -/
def bundleVersion : UInt16 := 2

/-- `BUNDLE_HEADER_SIZE`. -/
def bundleHeaderSize : Nat := 12 + 2 + 32 + 4 * 3

/-- `BUNDLE_TRAILER_SIZE_LEN`. -/
def bundleTrailerSizeLen : Nat := 4

/-! ## The header -/

/-- `BundleHeader`. -/
structure BundleHeader where
  magic : FixedBytes 12
  version : UInt16
  salt : FixedBytes 32
  argon2T : UInt32
  argon2M : UInt32
  argon2P : UInt32

namespace BundleHeader

/-- `BundleHeader::to_binary`. -/
def toBinary (h : BundleHeader) : Bytes :=
  let buf := putBytes [] h.magic.val
  let buf := putU16 buf h.version
  let buf := putBytes buf h.salt.val
  let buf := putU32 buf h.argon2T
  let buf := putU32 buf h.argon2M
  putU32 buf h.argon2P

/-- `BundleHeader::from_binary`. -/
def fromBinary (bytes : Bytes) : Option BundleHeader := do
  let (magic, cur) ← getArray 12 bytes
  let (version, cur) ← getU16 cur
  let (salt, cur) ← getArray 32 cur
  let (argon2T, cur) ← getU32 cur
  let (argon2M, cur) ← getU32 cur
  let (argon2P, _) ← getU32 cur
  return { magic, version, salt, argon2T, argon2M, argon2P }

theorem fromBinary_toBinary (h : BundleHeader) (rest : Bytes) :
    fromBinary (h.toBinary ++ rest) = some h := by
  simp [toBinary, fromBinary, putBytes, putU16, putU32, getArray_append, List.append_assoc]

theorem length_toBinary (h : BundleHeader) : h.toBinary.length = bundleHeaderSize := by
  have hmagic := h.magic.property
  have hsalt := h.salt.property
  simp [toBinary, putBytes, putU16, putU32, bundleHeaderSize, hmagic, hsalt]

end BundleHeader

/-! ## The trailer -/

/-- `BundleTrailer`. -/
structure BundleTrailer where
  rootTree : ID
  indexOffset : UInt64
  indexLen : UInt32
  manifestOffset : UInt64
  manifestLen : UInt32
  magicEnd : FixedBytes 12

namespace BundleTrailer

/-- `BundleTrailer::to_binary`. -/
def toBinary (t : BundleTrailer) : Bytes :=
  let buf := putBytes [] t.rootTree.asSlice
  let buf := putU64 buf t.indexOffset
  let buf := putU32 buf t.indexLen
  let buf := putU64 buf t.manifestOffset
  let buf := putU32 buf t.manifestLen
  putBytes buf t.magicEnd.val

/-- `BundleTrailer::from_binary`. -/
def fromBinary (bytes : Bytes) : Option BundleTrailer := do
  let (rootTree, cur) ← getArray 32 bytes
  let (indexOffset, cur) ← getU64 cur
  let (indexLen, cur) ← getU32 cur
  let (manifestOffset, cur) ← getU64 cur
  let (manifestLen, cur) ← getU32 cur
  let (magicEnd, _) ← getArray 12 cur
  return { rootTree := .fromBytes rootTree.val, indexOffset, indexLen, manifestOffset, manifestLen, magicEnd }

theorem fromBinary_toBinary (t : BundleTrailer) (rest : Bytes) :
    fromBinary (t.toBinary ++ rest) = some t := by
  simp [toBinary, fromBinary, putBytes, putU64, putU32, getArray_append, List.append_assoc, ID.toArray]

theorem length_toBinary (t : BundleTrailer) : t.toBinary.length = 68 := by
  have hmagic := t.magicEnd.property
  simp [toBinary, putBytes, putU64, putU32, hmagic]

end BundleTrailer

/-! ## The index -/

/-- `BundleIndexEntry`. -/
structure BundleIndexEntry where
  id : ID
  blobType : BlobType
  offset : UInt64
  length : UInt32
  rawLength : UInt32

namespace BundleIndexEntry

/-- `BundleIndexEntry::BINARY_SIZE`. -/
def binarySize : Nat := 32 + 1 + 8 + 4 + 4

/-- `BundleIndexEntry::to_binary`. -/
def toBinary (e : BundleIndexEntry) : Bytes :=
  let buf := putBytes [] e.id.asSlice
  let buf := putU8 buf e.blobType.toByte
  let buf := putU64 buf e.offset
  let buf := putU32 buf e.length
  putU32 buf e.rawLength

/-- `BundleIndexEntry::from_binary`. -/
def fromBinary (bytes : Bytes) : Option BundleIndexEntry := do
  let (id, cur) ← getArray 32 bytes
  let (byte, cur) ← getU8 cur
  let blobType ← BlobType.tryFrom byte
  let (offset, cur) ← getU64 cur
  let (length, cur) ← getU32 cur
  let (rawLength, _) ← getU32 cur
  return { id := .fromBytes id.val, blobType, offset, length, rawLength }

theorem fromBinary_toBinary (e : BundleIndexEntry) (rest : Bytes) :
    fromBinary (e.toBinary ++ rest) = some e := by
  simp [toBinary, fromBinary, putBytes, putU8, putU64, putU32, List.append_assoc, ID.toArray]

@[simp] theorem length_toBinary (e : BundleIndexEntry) : e.toBinary.length = binarySize := by
  simp [toBinary, putBytes, putU8, putU64, putU32, binarySize]

end BundleIndexEntry

/-- `BundleIndex`. -/
structure BundleIndex where
  entries : List BundleIndexEntry

namespace BundleIndex

/-- `BundleIndex::to_binary`. -/
def toBinary (index : BundleIndex) : Bytes :=
  putU64 [] (UInt64.ofNat index.entries.length) ++ index.entries.flatMap BundleIndexEntry.toBinary

/-- The loop of `BundleIndex::from_binary`. A cursor that is too short for an entry is a panic. -/
def readEntries : Nat → Bytes → Option (List BundleIndexEntry)
  | 0, _ => some []
  | n + 1, cur => do
      if cur.length < BundleIndexEntry.binarySize then none
      else
        let entry ← BundleIndexEntry.fromBinary (cur.take BundleIndexEntry.binarySize)
        let entries ← readEntries n (cur.drop BundleIndexEntry.binarySize)
        return entry :: entries

/-- `BundleIndex::from_binary`. -/
def fromBinary (bytes : Bytes) : Option BundleIndex := do
  let (len, cur) ← getU64 bytes
  let entries ← readEntries len.toNat cur
  return { entries }

theorem readEntries_flatMap (es : List BundleIndexEntry) (rest : Bytes) :
    readEntries es.length (es.flatMap BundleIndexEntry.toBinary ++ rest) = some es := by
  induction es with
  | nil => rfl
  | cons e es ih =>
    have hlen : e.toBinary.length = BundleIndexEntry.binarySize := e.length_toBinary
    have hread := BundleIndexEntry.fromBinary_toBinary e []
    rw [List.append_nil] at hread
    rw [List.flatMap_cons, List.append_assoc, List.length_cons, readEntries]
    have hlong : ¬ (e.toBinary ++
        (es.flatMap BundleIndexEntry.toBinary ++ rest)).length < BundleIndexEntry.binarySize := by
      rw [List.length_append, hlen]
      omega
    rw [if_neg hlong, ← hlen, List.take_left, List.drop_left, hread, ih]
    rfl

/-- An index of fewer than 2^64 entries is read back. -/
theorem fromBinary_toBinary {index : BundleIndex} (h : index.entries.length < 2 ^ 64) (rest : Bytes) :
    fromBinary (index.toBinary ++ rest) = some index := by
  have hlen : (UInt64.ofNat index.entries.length).toNat = index.entries.length := by
    rw [UInt64.toNat_ofNat']
    exact Nat.mod_eq_of_lt h
  have hget : getU64 (index.toBinary ++ rest) = some (UInt64.ofNat index.entries.length,
      index.entries.flatMap BundleIndexEntry.toBinary ++ rest) := by
    rw [toBinary, putU64, List.nil_append, List.append_assoc]
    exact getU64_append _ _
  rw [fromBinary, hget, Option.bind_eq_bind, Option.bind_some]
  simp only [hlen, readEntries_flatMap]
  rfl

theorem length_toBinary (index : BundleIndex) :
    index.toBinary.length = 8 + index.entries.length * BundleIndexEntry.binarySize := by
  simp [toBinary, putU64]

end BundleIndex

end Mapache
