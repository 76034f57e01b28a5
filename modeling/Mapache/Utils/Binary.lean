import Mapache.Common

/-!
# Little-endian fields

The writers and readers of fixed-width fields of `utils/binary.rs`. A reader takes its field from
the front of a cursor and leaves the rest; each of them reads back what its writer has put there,
whatever follows (`getArray_append`, `getU8_append` and so on).
-/

set_option autoImplicit false

namespace Mapache

open Lib

/-- An array of `n` bytes. -/
abbrev FixedBytes (n : Nat) := { bs : Bytes // bs.length = n }

/-- The bytes of an ID as an array. -/
def ID.toArray (id : ID) : FixedBytes 32 := ⟨id.asSlice, ID.length_asSlice id⟩

/-! ## Writers -/

/-- `put_bytes`. -/
def putBytes (buf v : Bytes) : Bytes := buf ++ v

/-- `put_u8`. -/
def putU8 (buf : Bytes) (v : UInt8) : Bytes := buf ++ [v]

/-- `put_u16`. -/
def putU16 (buf : Bytes) (v : UInt16) : Bytes := buf ++ littleEndian 2 v.toNat

/-- `put_u32`. -/
def putU32 (buf : Bytes) (v : UInt32) : Bytes := buf ++ littleEndian 4 v.toNat

/-- `put_u64`. -/
def putU64 (buf : Bytes) (v : UInt64) : Bytes := buf ++ littleEndian 8 v.toNat

/-- `put_i64`, in two's complement. -/
def putI64 (buf : Bytes) (v : Int64) : Bytes := putU64 buf v.toUInt64

/-! ## Readers -/

/-- `get_array`, the first `n` bytes of a cursor and what follows them. -/
def getArray (n : Nat) (cur : Bytes) : Option (FixedBytes n × Bytes) :=
  if h : cur.length < n then none
  else some (⟨cur.take n, by rw [List.length_take]; omega⟩, cur.drop n)

/-- `get_u8`. -/
def getU8 (cur : Bytes) : Option (UInt8 × Bytes) :=
  (getArray 1 cur).map fun (v, rest) => (v.val.getD 0 0, rest)

/-- `get_u16`. -/
def getU16 (cur : Bytes) : Option (UInt16 × Bytes) :=
  (getArray 2 cur).map fun (v, rest) => (UInt16.ofNat (ofLittleEndian v.val), rest)

/-- `get_u32`. -/
def getU32 (cur : Bytes) : Option (UInt32 × Bytes) :=
  (getArray 4 cur).map fun (v, rest) => (UInt32.ofNat (ofLittleEndian v.val), rest)

/-- `get_u64`. -/
def getU64 (cur : Bytes) : Option (UInt64 × Bytes) :=
  (getArray 8 cur).map fun (v, rest) => (UInt64.ofNat (ofLittleEndian v.val), rest)

/-! ## Reading back -/

section

variable (rest : Bytes)

/-- An array is read back. -/
theorem getArray_append {n : Nat} (v : FixedBytes n) :
    getArray n (v.val ++ rest) = some (v, rest) := by
  obtain ⟨bs, rfl⟩ := v
  have hlen : ¬ (bs ++ rest).length < bs.length := by
    rw [List.length_append]
    omega
  rw [getArray, dif_neg hlen]
  simp only [List.take_left, List.drop_left]

@[simp] theorem getArray_asSlice (id : ID) :
    getArray 32 (id.asSlice ++ rest) = some (id.toArray, rest) :=
  getArray_append rest id.toArray

@[simp] theorem getU8_append (v : UInt8) : getU8 (v :: rest) = some (v, rest) := by
  have h : getArray 1 (v :: rest) = some (⟨[v], rfl⟩, rest) := getArray_append rest ⟨[v], rfl⟩
  rw [getU8, h]
  rfl

/-- The bytes of an integer are an array that is read back. -/
theorem getArray_littleEndian (w n : Nat) :
    getArray w (littleEndian w n ++ rest) =
      some (⟨littleEndian w n, length_littleEndian w n⟩, rest) :=
  getArray_append rest ⟨littleEndian w n, length_littleEndian w n⟩

@[simp] theorem getU16_append (v : UInt16) :
    getU16 (littleEndian 2 v.toNat ++ rest) = some (v, rest) := by
  have hlt : v.toNat < 256 ^ 2 := v.toNat_lt
  simp only [getU16, getArray_littleEndian, Option.map_some, ofLittleEndian_littleEndian hlt,
    UInt16.ofNat_toNat]

@[simp] theorem getU32_append (v : UInt32) :
    getU32 (littleEndian 4 v.toNat ++ rest) = some (v, rest) := by
  have hlt : v.toNat < 256 ^ 4 := v.toNat_lt
  simp only [getU32, getArray_littleEndian, Option.map_some, ofLittleEndian_littleEndian hlt,
    UInt32.ofNat_toNat]

@[simp] theorem getU64_append (v : UInt64) :
    getU64 (littleEndian 8 v.toNat ++ rest) = some (v, rest) := by
  have hlt : v.toNat < 256 ^ 8 := v.toNat_lt
  simp only [getU64, getArray_littleEndian, Option.map_some, ofLittleEndian_littleEndian hlt,
    UInt64.ofNat_toNat]

end

/-! ## What was read -/

section

variable {cur rest : Bytes}

/-- What was read stood at the front. -/
theorem getArray_eq_some {n : Nat} {v : FixedBytes n} (h : getArray n cur = some (v, rest)) :
    cur = v.val ++ rest := by
  unfold getArray at h
  split at h
  · cases h
  · cases h
    exact (List.take_append_drop n cur).symm

theorem getU8_eq_some {v : UInt8} (h : getU8 cur = some (v, rest)) : cur = v :: rest := by
  obtain ⟨⟨⟨bs, hlen⟩, rest'⟩, hbs, hv⟩ := Option.map_eq_some_iff.mp h
  obtain ⟨b, rfl⟩ := List.length_eq_one_iff.mp hlen
  cases hv
  exact getArray_eq_some hbs

theorem getU32_eq_some {v : UInt32} (h : getU32 cur = some (v, rest)) :
    cur = littleEndian 4 v.toNat ++ rest := by
  obtain ⟨⟨⟨bs, hlen⟩, rest'⟩, hbs, hv⟩ := Option.map_eq_some_iff.mp h
  cases hv
  have hlt : ofLittleEndian bs < 2 ^ 32 := by
    have hbytes := ofLittleEndian_lt bs
    rw [hlen] at hbytes
    exact hbytes
  rw [UInt32.toNat_ofNat', Nat.mod_eq_of_lt hlt, ← hlen, littleEndian_ofLittleEndian]
  exact getArray_eq_some hbs

theorem getU64_eq_some {v : UInt64} (h : getU64 cur = some (v, rest)) :
    cur = littleEndian 8 v.toNat ++ rest := by
  obtain ⟨⟨⟨bs, hlen⟩, rest'⟩, hbs, hv⟩ := Option.map_eq_some_iff.mp h
  cases hv
  have hlt : ofLittleEndian bs < 2 ^ 64 := by
    have hbytes := ofLittleEndian_lt bs
    rw [hlen] at hbytes
    exact hbytes
  rw [UInt64.toNat_ofNat', Nat.mod_eq_of_lt hlt, ← hlen, littleEndian_ofLittleEndian]
  exact getArray_eq_some hbs

end

end Mapache
