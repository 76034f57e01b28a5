import Mathlib.Order.Fin.Basic
import Mapache.Lib.Bytes

/-!
# Identifiers and blob types

The data types of `common/mod.rs` that every other module uses. An `ID` is a 256-bit hash; the
derived order on the source's byte array is the lexicographic order of its bytes, which is the order
of the big-endian number, so an `ID` is that number.
-/

set_option autoImplicit false

namespace Mapache

open Lib

/-- A content hash of `ID_LENGTH = 32` bytes, as the big-endian number of its bytes. -/
abbrev ID := Fin (2 ^ 256)

/-- Numerals are IDs. -/
instance ID.neZero : NeZero (2 ^ 256) := ⟨by decide⟩

/-- The bytes of an ID (`ID::as_slice`). -/
def ID.asSlice (id : ID) : Bytes := bigEndian 32 id.val

/-- The ID with the given bytes (`ID::from_bytes`). -/
def ID.fromBytes (bs : Bytes) : ID := Fin.ofNat _ (ofBigEndian bs)

@[simp] theorem ID.length_asSlice (id : ID) : id.asSlice.length = 32 := by
  simp [ID.asSlice]

@[simp] theorem ID.fromBytes_asSlice (id : ID) : ID.fromBytes id.asSlice = id := by
  have hlt : id.val < 256 ^ 32 := by
    have hpow : (256 : Nat) ^ 32 = 2 ^ 256 := by norm_num
    rw [hpow]
    exact id.isLt
  rw [ID.fromBytes, ID.asSlice, ofBigEndian_bigEndian hlt]
  exact Fin.ofNat_val_eq_self id

/-- An array of 32 bytes is the bytes of its ID. -/
theorem ID.asSlice_fromBytes {bs : Bytes} (h : bs.length = 32) : (ID.fromBytes bs).asSlice = bs := by
  have hlt : ofBigEndian bs < 2 ^ 256 := by
    have hpow : (256 : Nat) ^ 32 = 2 ^ 256 := by norm_num
    have hvalue := ofBigEndian_lt bs
    rw [h, hpow] at hvalue
    exact hvalue
  have hval : (ID.fromBytes bs).val = ofBigEndian bs := Nat.mod_eq_of_lt hlt
  rw [ID.asSlice, hval, ← h]
  exact bigEndian_ofBigEndian bs

/-- Type of objects that can be stored in a repository. A padding descriptor is fake: it only
obfuscates the number of blobs of a pack. -/
inductive BlobType where
  | data
  | tree
  | padding
  deriving DecidableEq, Repr

/-- The byte a blob type is written as. -/
def BlobType.toByte : BlobType → UInt8
  | .data => 0x00
  | .tree => 0x01
  | .padding => 0xff

/-- `BlobType::try_from`: every other byte is an error. -/
def BlobType.tryFrom (b : UInt8) : Option BlobType :=
  if b = 0x00 then some .data
  else if b = 0x01 then some .tree
  else if b = 0xff then some .padding
  else none

theorem BlobType.toByte_of_tryFrom {b : UInt8} {t : BlobType} (h : BlobType.tryFrom b = some t) :
    t.toByte = b := by
  unfold BlobType.tryFrom at h
  split at h
  · cases h
    exact Eq.symm ‹_›
  · split at h
    · cases h
      exact Eq.symm ‹_›
    · split at h
      · cases h
        exact Eq.symm ‹_›
      · cases h

@[simp] theorem BlobType.tryFrom_toByte (t : BlobType) : BlobType.tryFrom t.toByte = some t := by
  cases t <;> rfl

/-- How the ID of a saved object is chosen: the hash of its content, or an ID the caller knows. -/
inductive SaveID where
  | calculateID
  | withID (id : ID)
  deriving DecidableEq

end Mapache
