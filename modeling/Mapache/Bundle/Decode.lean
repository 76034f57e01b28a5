import Mapache.Bundle.Format
import Mapache.Common.Error
import Mapache.Lib.Outcome

/-!
# Decoding a bundle, with its errors and panics

The readers of `utils/binary.rs` and the `from_binary` functions of `bundle/format.rs` once more,
with the text of their errors and with every operation that may panic: the slices, the conversion of
a slice to an array and the allocation of the entries. `Mapache.BundleIndex.fromBinary` and the other
readers of `Bundle.Format` are what is left when the failures are not told apart
(`computes_bundleHeader` and so on).

The readers of single fields check the length of the input themselves, so the records of a fixed
size never panic. The index trusts the count it reads (`decodesSafely_iff`).
-/

set_option autoImplicit false

namespace Mapache.Checked

open Lib

/-- `Result<T>`, or a panic. -/
abbrev Decoded (α : Type) := Outcome MapacheError α

/-! ## Readers -/

/-- `get_exact`. `split_at` panics behind the end. -/
def getExact (cur : Bytes) (len : Nat) : Decoded (Bytes × Bytes) :=
  if cur.length < len then
    .err (.format s!"unexpected end of input: needed {len} bytes, have {cur.length}")
  else do
    let val ← Outcome.sliceTo cur len
    let rest ← Outcome.sliceFrom cur len
    return (val, rest)

/-- `get_array`. -/
def getArray (n : Nat) (cur : Bytes) : Decoded (FixedBytes n × Bytes) := do
  let (slice, rest) ← getExact cur n
  -- `try_into`, and `expect`
  if h : slice.length = n then return (⟨slice, h⟩, rest) else .panic

/-- `get_u8`. -/
def getU8 (cur : Bytes) : Decoded (UInt8 × Bytes) := do
  let (arr, rest) ← getArray 1 cur
  return (arr.val.getD 0 0, rest)

/-- `get_u16`. -/
def getU16 (cur : Bytes) : Decoded (UInt16 × Bytes) := do
  let (arr, rest) ← getArray 2 cur
  return (UInt16.ofNat (ofLittleEndian arr.val), rest)

/-- `get_u32`. -/
def getU32 (cur : Bytes) : Decoded (UInt32 × Bytes) := do
  let (arr, rest) ← getArray 4 cur
  return (UInt32.ofNat (ofLittleEndian arr.val), rest)

/-- `get_u64`. -/
def getU64 (cur : Bytes) : Decoded (UInt64 × Bytes) := do
  let (arr, rest) ← getArray 8 cur
  return (UInt64.ofNat (ofLittleEndian arr.val), rest)

/-- `BlobType::try_from`. -/
def blobTypeTryFrom (b : UInt8) : Decoded BlobType :=
  match BlobType.tryFrom b with
  | some t => .ok t
  | none => .err (.format s!"invalid blob type byte: {b.toNat}")

/-! ## Records -/

/-- `BundleHeader::from_binary`. -/
def bundleHeader (bytes : Bytes) : Decoded BundleHeader := do
  let (magic, cur) ← getArray 12 bytes
  let (version, cur) ← getU16 cur
  let (salt, cur) ← getArray 32 cur
  let (argon2T, cur) ← getU32 cur
  let (argon2M, cur) ← getU32 cur
  let (argon2P, _) ← getU32 cur
  return { magic, version, salt, argon2T, argon2M, argon2P }

/-- `BundleTrailer::from_binary`. -/
def bundleTrailer (bytes : Bytes) : Decoded BundleTrailer := do
  let (rootTree, cur) ← getArray 32 bytes
  let (indexOffset, cur) ← getU64 cur
  let (indexLen, cur) ← getU32 cur
  let (manifestOffset, cur) ← getU64 cur
  let (manifestLen, cur) ← getU32 cur
  let (magicEnd, _) ← getArray 12 cur
  return { rootTree := .fromBytes rootTree.val, indexOffset, indexLen, manifestOffset, manifestLen, magicEnd }

/-- `BundleIndexEntry::from_binary`. -/
def bundleIndexEntry (bytes : Bytes) : Decoded BundleIndexEntry := do
  let (id, cur) ← getArray 32 bytes
  let (byte, cur) ← getU8 cur
  let blobType ← blobTypeTryFrom byte
  let (offset, cur) ← getU64 cur
  let (length, cur) ← getU32 cur
  let (rawLength, _) ← getU32 cur
  return { id := .fromBytes id.val, blobType, offset, length, rawLength }

/-- `size_of::<BundleIndexEntry>()`: 49 bytes, aligned to 8. -/
def entrySize : Nat := 56

/-- `Vec::with_capacity`, which panics when the capacity exceeds `isize::MAX` bytes. -/
def withCapacity (size cap : Nat) : Decoded Unit := if cap * size < 2 ^ 63 then .ok () else .panic

/-- The loop of `BundleIndex::from_binary`. -/
def readEntries : Nat → Bytes → Decoded (List BundleIndexEntry)
  | 0, _ => return []
  | n + 1, cur => do
      let head ← Outcome.sliceTo cur BundleIndexEntry.binarySize
      let entry ← bundleIndexEntry head
      let cur ← Outcome.sliceFrom cur BundleIndexEntry.binarySize
      let entries ← readEntries n cur
      return entry :: entries

/-- A call of `BundleIndex::from_binary`: the number of entries it asks memory for, and its end. -/
structure IndexCall where
  capacity : Nat
  outcome : Decoded BundleIndex

/-- `BundleIndex::from_binary`. -/
def bundleIndex (bytes : Bytes) : IndexCall :=
  match getU64 bytes with
  | .ok (len, cur) =>
    { capacity := len.toNat
      outcome := do
        withCapacity entrySize len.toNat
        let entries ← readEntries len.toNat cur
        return { entries } }
  | .err e => ⟨0, .err e⟩
  | .panic => ⟨0, .panic⟩

/-! ## The readers without their failures -/

theorem getExact_of_le {cur : Bytes} {len : Nat} (h : len ≤ cur.length) :
    getExact cur len = .ok (cur.take len, cur.drop len) := by
  rw [getExact, if_neg (by omega), Outcome.sliceTo_of_le h, Outcome.ok_bind,
    Outcome.sliceFrom_of_le h]
  rfl

theorem getArray_of_le {n : Nat} {cur : Bytes} (h : n ≤ cur.length) :
    getArray n cur = .ok (⟨cur.take n, by rw [List.length_take]; omega⟩, cur.drop n) := by
  have hlen : (cur.take n).length = n := by
    rw [List.length_take]
    omega
  rw [getArray, getExact_of_le h, Outcome.ok_bind]
  exact dif_pos hlen

theorem getArray_of_lt {n : Nat} {cur : Bytes} (h : cur.length < n) :
    getArray n cur =
      .err (.format s!"unexpected end of input: needed {n} bytes, have {cur.length}") := by
  rw [getArray, getExact, if_pos h, Outcome.err_bind]

section

variable (cur : Bytes)

/-- An array is read, or the input is too short. -/
theorem computes_getArray (n : Nat) : (getArray n cur).Computes (Mapache.getArray n cur) := by
  by_cases h : cur.length < n
  · rw [getArray_of_lt h, Mapache.getArray, dif_pos h]
    exact Outcome.computes_err _
  · rw [getArray_of_le (by omega), Mapache.getArray, dif_neg h]
    exact Outcome.computes_ok _

theorem computes_getU8 : (getU8 cur).Computes (Mapache.getU8 cur) :=
  (computes_getArray cur 1).map fun _ => rfl

theorem computes_getU16 : (getU16 cur).Computes (Mapache.getU16 cur) :=
  (computes_getArray cur 2).map fun _ => rfl

theorem computes_getU32 : (getU32 cur).Computes (Mapache.getU32 cur) :=
  (computes_getArray cur 4).map fun _ => rfl

theorem computes_getU64 : (getU64 cur).Computes (Mapache.getU64 cur) :=
  (computes_getArray cur 8).map fun _ => rfl

theorem computes_blobTypeTryFrom (b : UInt8) :
    (blobTypeTryFrom b).Computes (BlobType.tryFrom b) := by
  unfold blobTypeTryFrom
  cases BlobType.tryFrom b with
  | some t => exact Outcome.computes_ok t
  | none => exact Outcome.computes_err _

end

-- each field consumes what the one before it left, so the records go field by field
section Records

variable (bytes : Bytes)

theorem computes_bundleHeader : (bundleHeader bytes).Computes (BundleHeader.fromBinary bytes) := by
  apply (computes_getArray _ 12).bind
  rintro ⟨magic, cur⟩
  apply (computes_getU16 cur).bind
  rintro ⟨version, cur⟩
  apply (computes_getArray cur 32).bind
  rintro ⟨salt, cur⟩
  apply (computes_getU32 cur).bind
  rintro ⟨argon2T, cur⟩
  apply (computes_getU32 cur).bind
  rintro ⟨argon2M, cur⟩
  apply (computes_getU32 cur).bind
  rintro ⟨argon2P, cur⟩
  exact Outcome.computes_ok _

theorem computes_bundleTrailer :
    (bundleTrailer bytes).Computes (BundleTrailer.fromBinary bytes) := by
  apply (computes_getArray _ 32).bind
  rintro ⟨rootTree, cur⟩
  apply (computes_getU64 cur).bind
  rintro ⟨indexOffset, cur⟩
  apply (computes_getU32 cur).bind
  rintro ⟨indexLen, cur⟩
  apply (computes_getU64 cur).bind
  rintro ⟨manifestOffset, cur⟩
  apply (computes_getU32 cur).bind
  rintro ⟨manifestLen, cur⟩
  apply (computes_getArray cur 12).bind
  rintro ⟨magicEnd, cur⟩
  exact Outcome.computes_ok _

theorem computes_bundleIndexEntry :
    (bundleIndexEntry bytes).Computes (BundleIndexEntry.fromBinary bytes) := by
  apply (computes_getArray _ 32).bind
  rintro ⟨id, cur⟩
  apply (computes_getU8 cur).bind
  rintro ⟨byte, cur⟩
  apply (computes_blobTypeTryFrom byte).bind
  intro blobType
  apply (computes_getU64 cur).bind
  rintro ⟨offset, cur⟩
  apply (computes_getU32 cur).bind
  rintro ⟨length, cur⟩
  apply (computes_getU32 cur).bind
  rintro ⟨rawLength, cur⟩
  exact Outcome.computes_ok _

end Records

/-! ## The index -/

section Entries

variable {n : Nat} {cur : Bytes}

/-- An entry that is read stands at the front as it is written. -/
theorem exists_of_bundleIndexEntry {e : BundleIndexEntry}
    (h : BundleIndexEntry.fromBinary cur = some e) : ∃ rest, cur = e.toBinary ++ rest := by
  simp only [BundleIndexEntry.fromBinary, Option.bind_eq_bind, Option.bind_eq_some_iff] at h
  obtain ⟨⟨id, cur₁⟩, hid, ⟨byte, cur₂⟩, hbyte, t, ht, ⟨offset, cur₃⟩, hoffset, ⟨length, cur₄⟩,
    hlength, ⟨rawLength, rest⟩, hraw, he⟩ := h
  dsimp only at hbyte ht hoffset hlength hraw he
  refine ⟨rest, ?_⟩
  rw [getArray_eq_some hid, getU8_eq_some hbyte, getU64_eq_some hoffset, getU32_eq_some hlength,
    getU32_eq_some hraw, ← Option.some.inj he]
  simp only [BundleIndexEntry.toBinary, putBytes, putU8, putU64, putU32,
    ID.asSlice_fromBytes id.property, BlobType.toByte_of_tryFrom ht, List.nil_append,
    List.append_assoc, List.cons_append]

theorem exists_of_readEntries {es : List BundleIndexEntry}
    (h : BundleIndex.readEntries n cur = some es) :
    es.length = n ∧ ∃ rest, cur = es.flatMap BundleIndexEntry.toBinary ++ rest := by
  induction n generalizing cur es with
  | zero =>
    cases h
    exact ⟨rfl, cur, rfl⟩
  | succ n ih =>
    rw [BundleIndex.readEntries] at h
    split at h
    · cases h
    · rename_i hlong
      simp only [Option.bind_eq_bind, Option.bind_eq_some_iff] at h
      obtain ⟨e, he, es', hes', hcons⟩ := h
      obtain ⟨hlen, rest, hrest⟩ := ih hes'
      obtain ⟨more, hmore⟩ := exists_of_bundleIndexEntry he
      -- the entry takes the whole slice
      have hnil : more = [] := by
        have hlength := congrArg List.length hmore
        rw [List.length_take, List.length_append, BundleIndexEntry.length_toBinary] at hlength
        apply List.eq_nil_of_length_eq_zero
        omega
      rw [hnil, List.append_nil] at hmore
      cases hcons
      refine ⟨by rw [List.length_cons, hlen], rest, ?_⟩
      rw [List.flatMap_cons, List.append_assoc, ← hrest, ← hmore, List.take_append_drop]

/-- With enough input the loop reads what the other model reads, and does not panic. -/
theorem readEntries_of_le (h : n * BundleIndexEntry.binarySize ≤ cur.length) :
    (readEntries n cur).Computes (BundleIndex.readEntries n cur) := by
  induction n generalizing cur with
  | zero => exact Outcome.computes_ok _
  | succ n ih =>
    rw [Nat.succ_mul] at h
    have hle : BundleIndexEntry.binarySize ≤ cur.length := by omega
    have hrest : n * BundleIndexEntry.binarySize ≤ (cur.drop BundleIndexEntry.binarySize).length := by
      rw [List.length_drop]
      omega
    rw [readEntries, Outcome.sliceTo_of_le hle, Outcome.ok_bind, BundleIndex.readEntries,
      if_neg (by omega)]
    apply (computes_bundleIndexEntry _).bind
    intro entry
    rw [Outcome.sliceFrom_of_le hle, Outcome.ok_bind]
    apply (ih hrest).bind
    intro entries
    exact Outcome.computes_ok _

end Entries

/-- The number of entries that the first 8 bytes announce. -/
def entryCount (bytes : Bytes) : Nat := ofLittleEndian (bytes.take 8)

/-- The entries that are announced fit behind their number, and the machine could hold them. -/
def CountFits (bytes : Bytes) : Prop :=
  8 ≤ bytes.length → entryCount bytes * BundleIndexEntry.binarySize ≤ bytes.length - 8 ∧
    entryCount bytes * entrySize < 2 ^ 63

/-- Decoding ends in a value or an error, asks for no more memory than for the entries that the
input has room for, and accepts just what begins with an index. -/
structure DecodesSafely (bytes : Bytes) : Prop where
  header : (bundleHeader bytes).Returns
  trailer : (bundleTrailer bytes).Returns
  entry : (bundleIndexEntry bytes).Returns
  index : (bundleIndex bytes).outcome.Returns
  capacity : (bundleIndex bytes).capacity * BundleIndexEntry.binarySize ≤ bytes.length - 8
  accepts : (∃ index, (bundleIndex bytes).outcome = .ok index) ↔
    ∃ index : BundleIndex, index.entries.length < 2 ^ 64 ∧ index.toBinary <+: bytes

section Index

variable {bytes : Bytes}

theorem bundleIndex_of_lt (h : bytes.length < 8) :
    bundleIndex bytes = ⟨0, .err (.format
      s!"unexpected end of input: needed {8} bytes, have {bytes.length}")⟩ := by
  rw [bundleIndex, getU64, getArray_of_lt h, Outcome.err_bind]

theorem bundleIndex_of_le (h : 8 ≤ bytes.length) :
    bundleIndex bytes = ⟨entryCount bytes, withCapacity entrySize (entryCount bytes) >>= fun _ =>
      readEntries (entryCount bytes) (bytes.drop 8) >>= fun entries => .ok { entries }⟩ := by
  have hcount : (UInt64.ofNat (entryCount bytes)).toNat = entryCount bytes := by
    have hlt := ofLittleEndian_lt (bytes.take 8)
    rw [List.length_take, Nat.min_eq_left h] at hlt
    rw [UInt64.toNat_ofNat']
    exact Nat.mod_eq_of_lt hlt
  have hget : getU64 bytes = .ok (UInt64.ofNat (entryCount bytes), bytes.drop 8) := by
    rw [getU64, getArray_of_le h, Outcome.ok_bind]
    rfl
  rw [bundleIndex, hget]
  simp only [hcount]
  rfl

/-- A count that fits is read without a panic, as the other model reads it. -/
theorem bundleIndex_of_fits (h : CountFits bytes) :
    (bundleIndex bytes).outcome.Computes (BundleIndex.fromBinary bytes) := by
  by_cases hlen : bytes.length < 8
  · rw [bundleIndex_of_lt hlen, BundleIndex.fromBinary, Mapache.getU64, Mapache.getArray,
      dif_pos hlen]
    exact Outcome.computes_err _
  · have hle : 8 ≤ bytes.length := by omega
    obtain ⟨hroom, hmemory⟩ := h hle
    have hdrop : entryCount bytes * BundleIndexEntry.binarySize ≤ (bytes.drop 8).length := by
      rw [List.length_drop]
      exact hroom
    have hcap : withCapacity entrySize (entryCount bytes) = .ok () := if_pos hmemory
    have hrun : (bundleIndex bytes).outcome =
        readEntries (entryCount bytes) (bytes.drop 8) >>= fun entries => .ok { entries } := by
      rw [bundleIndex_of_le hle, hcap]
      rfl
    have hcount : (UInt64.ofNat (entryCount bytes)).toNat = entryCount bytes := by
      rw [UInt64.toNat_ofNat']
      apply Nat.mod_eq_of_lt
      rw [entrySize] at hmemory
      omega
    have hget : Mapache.getU64 bytes =
        some (UInt64.ofNat (entryCount bytes), bytes.drop 8) := by
      rw [Mapache.getU64, Mapache.getArray, dif_neg hlen]
      rfl
    rw [hrun, BundleIndex.fromBinary, hget, Option.bind_eq_bind, Option.bind_some]
    simp only [hcount]
    apply (readEntries_of_le hdrop).bind
    intro entries
    exact Outcome.computes_ok _

/-- What is accepted begins with the index that was read. -/
theorem prefix_of_fromBinary {index : BundleIndex} (h : BundleIndex.fromBinary bytes = some index) :
    index.entries.length < 2 ^ 64 ∧ index.toBinary <+: bytes := by
  simp only [BundleIndex.fromBinary, Option.bind_eq_bind, Option.bind_eq_some_iff] at h
  obtain ⟨⟨len, cur⟩, hget, es, hes, hindex⟩ := h
  cases hindex
  obtain ⟨hlen, rest, hrest⟩ := exists_of_readEntries hes
  dsimp only at hlen hrest
  have hlt : es.length < 2 ^ 64 := hlen ▸ len.toNat_lt
  refine ⟨hlt, rest, ?_⟩
  have hcount : (UInt64.ofNat es.length) = len := by
    rw [hlen, UInt64.ofNat_toNat]
  rw [BundleIndex.toBinary, putU64, hcount, getU64_eq_some hget, hrest, List.nil_append,
    List.append_assoc]

end Index

/-- **The index decoder is safe exactly where the count it reads fits the input.** -/
theorem decodesSafely_iff (bytes : Bytes) : DecodesSafely bytes ↔ CountFits bytes := by
  constructor
  · intro h hle
    have hroom := h.capacity
    have hindex := h.index
    rw [bundleIndex_of_le hle] at hroom hindex
    refine ⟨hroom, ?_⟩
    by_contra hmemory
    have hcap : withCapacity entrySize (entryCount bytes) = .panic := if_neg hmemory
    apply hindex
    dsimp only
    rw [hcap]
    rfl
  · intro h
    obtain ⟨hreturns, hvalue⟩ := bundleIndex_of_fits h
    refine ⟨(computes_bundleHeader bytes).returns, (computes_bundleTrailer bytes).returns,
      (computes_bundleIndexEntry bytes).returns, hreturns, ?_, ?_⟩
    · by_cases hlen : bytes.length < 8
      · rw [bundleIndex_of_lt hlen]
        exact Nat.zero_le _
      · rw [bundleIndex_of_le (by omega)]
        exact (h (by omega)).1
    · constructor
      · rintro ⟨index, hok⟩
        rw [hok] at hvalue
        exact ⟨index, prefix_of_fromBinary hvalue.symm⟩
      · rintro ⟨index, hlt, rest, rfl⟩
        rw [BundleIndex.fromBinary_toBinary hlt] at hvalue
        exact ⟨index, Outcome.toOption_eq_some.mp hvalue⟩

/-- A count of one and no entry: memory for one entry is asked for, and its slice is out of range. -/
theorem not_decodesSafely_one :
    (bundleIndex [1, 0, 0, 0, 0, 0, 0, 0]).outcome = .panic ∧
      ¬ DecodesSafely [1, 0, 0, 0, 0, 0, 0, 0] := by
  have hpanic : (bundleIndex [1, 0, 0, 0, 0, 0, 0, 0]).outcome = .panic := rfl
  exact ⟨hpanic, fun h => h.index hpanic⟩

end Mapache.Checked
