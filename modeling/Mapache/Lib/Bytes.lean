import Mathlib.Data.List.Basic
import Mathlib.Data.List.Induction
import Mathlib.Tactic.Ring

/-!
# Byte strings and fixed-width integers

Byte strings are lists of bytes. `bigEndian w n` and `littleEndian w n` write the low `w` bytes of
`n` in big-endian and little-endian order; `ofBigEndian` and `ofLittleEndian` read a byte string
back. A value that fits in the width is recovered exactly (`ofBigEndian_bigEndian`,
`ofLittleEndian_littleEndian`), and so are the bytes of a value (`bigEndian_ofBigEndian`,
`littleEndian_ofLittleEndian`).
-/

set_option autoImplicit false

namespace Mapache.Lib

/-- A byte string. -/
abbrev Bytes := List UInt8

/-- The low `w` bytes of `n`, most significant byte first. -/
def bigEndian : Nat → Nat → Bytes
  | 0, _ => []
  | w + 1, n => bigEndian w (n / 256) ++ [UInt8.ofNat (n % 256)]

/-- The value of a byte string, most significant byte first. -/
def ofBigEndian (bs : Bytes) : Nat := bs.foldl (fun acc b => acc * 256 + b.toNat) 0

/-- The low `w` bytes of `n`, least significant byte first. -/
def littleEndian : Nat → Nat → Bytes
  | 0, _ => []
  | w + 1, n => UInt8.ofNat (n % 256) :: littleEndian w (n / 256)

/-- The value of a byte string, least significant byte first. -/
def ofLittleEndian : Bytes → Nat
  | [] => 0
  | b :: bs => b.toNat + 256 * ofLittleEndian bs

@[simp] theorem length_bigEndian (w n : Nat) : (bigEndian w n).length = w := by
  induction w generalizing n with
  | zero => rfl
  | succ w ih => simp [bigEndian, ih]

@[simp] theorem length_littleEndian (w n : Nat) : (littleEndian w n).length = w := by
  induction w generalizing n with
  | zero => rfl
  | succ w ih => simp [littleEndian, ih]

theorem toNat_ofNat_mod (n : Nat) : (UInt8.ofNat (n % 256)).toNat = n % 256 := by
  rw [UInt8.toNat_ofNat']
  omega

theorem ofBigEndian_bigEndian_mod (w n : Nat) : ofBigEndian (bigEndian w n) = n % 256 ^ w := by
  induction w generalizing n with
  | zero => simp [bigEndian, ofBigEndian, Nat.mod_one]
  | succ w ih =>
    have hfold : ofBigEndian (bigEndian (w + 1) n) = ofBigEndian (bigEndian w (n / 256)) * 256 + n
        % 256 := by
      simp only [bigEndian, ofBigEndian, List.foldl_append, List.foldl_cons, List.foldl_nil,
        toNat_ofNat_mod]
    rw [hfold, ih, pow_succ, Nat.mul_comm (256 ^ w) 256, Nat.mod_mul]
    ring

/-- A value that fits in `w` bytes is read back from its big-endian bytes. -/
theorem ofBigEndian_bigEndian {w n : Nat} (h : n < 256 ^ w) : ofBigEndian (bigEndian w n) = n := by
  rw [ofBigEndian_bigEndian_mod, Nat.mod_eq_of_lt h]

theorem ofLittleEndian_littleEndian_mod (w n : Nat) :
    ofLittleEndian (littleEndian w n) = n % 256 ^ w := by
  induction w generalizing n with
  | zero => simp [littleEndian, ofLittleEndian, Nat.mod_one]
  | succ w ih =>
    simp only [littleEndian, ofLittleEndian, toNat_ofNat_mod, ih]
    rw [pow_succ, Nat.mul_comm (256 ^ w) 256, Nat.mod_mul]

/-- A value that fits in `w` bytes is read back from its little-endian bytes. -/
theorem ofLittleEndian_littleEndian {w n : Nat} (h : n < 256 ^ w) :
    ofLittleEndian (littleEndian w n) = n := by
  rw [ofLittleEndian_littleEndian_mod, Nat.mod_eq_of_lt h]

/-- The bytes of the value of a byte string are that byte string. -/
theorem littleEndian_ofLittleEndian (bs : Bytes) : littleEndian bs.length (ofLittleEndian bs) = bs := by
  induction bs with
  | nil => rfl
  | cons b bs ih =>
    have hb := b.toNat_lt
    have hmod : (b.toNat + 256 * ofLittleEndian bs) % 256 = b.toNat := by omega
    have hdiv : (b.toNat + 256 * ofLittleEndian bs) / 256 = ofLittleEndian bs := by omega
    rw [ofLittleEndian, List.length_cons, littleEndian, hmod, hdiv, ih, UInt8.ofNat_toNat]

theorem bigEndian_ofBigEndian (bs : Bytes) : bigEndian bs.length (ofBigEndian bs) = bs := by
  induction bs using List.reverseRecOn with
  | nil => rfl
  | append_singleton bs b ih =>
    have hb := b.toNat_lt
    have hvalue : ofBigEndian (bs ++ [b]) = ofBigEndian bs * 256 + b.toNat := by
      simp only [ofBigEndian, List.foldl_append, List.foldl_cons, List.foldl_nil]
    have hmod : (ofBigEndian bs * 256 + b.toNat) % 256 = b.toNat := by omega
    have hdiv : (ofBigEndian bs * 256 + b.toNat) / 256 = ofBigEndian bs := by omega
    rw [hvalue, List.length_append, List.length_singleton, bigEndian, hmod, hdiv, ih,
      UInt8.ofNat_toNat]

theorem ofBigEndian_lt (bs : Bytes) : ofBigEndian bs < 256 ^ bs.length := by
  have hvalue := congrArg ofBigEndian (bigEndian_ofBigEndian bs)
  rw [ofBigEndian_bigEndian_mod] at hvalue
  rw [← hvalue]
  exact Nat.mod_lt _ (Nat.pow_pos (by norm_num))

theorem ofLittleEndian_lt (bs : Bytes) : ofLittleEndian bs < 256 ^ bs.length := by
  induction bs with
  | nil => simp [ofLittleEndian]
  | cons b bs ih =>
    have hb := b.toNat_lt
    rw [ofLittleEndian, List.length_cons, Nat.pow_succ]
    omega

/-- The bytes a ranged read returns: `length` bytes from `offset`, fewer at the end of the file, and
everything from `offset` on when `length` is zero. -/
def readRange (data : Bytes) (offset length : Nat) : Bytes :=
  if length = 0 then data.drop offset else (data.drop offset).take length

/-- A ranged read that lies in the first part of a file does not see what was appended to it. -/
theorem readRange_append {pre mid post : Bytes} (hmid : mid ≠ []) :
    readRange (pre ++ mid ++ post) pre.length mid.length = mid := by
  have hlen : mid.length ≠ 0 := by simpa using hmid
  rw [readRange, if_neg hlen, List.append_assoc, List.drop_left, List.take_left]

/-- A part of what a ranged read returned is a ranged read itself. -/
theorem take_drop_readRange {data : Bytes} {lo hi offset length : Nat} (hlo : lo ≤ offset)
    (hhi : offset + length ≤ hi) (hlen : length ≠ 0) :
    ((readRange data lo (hi - lo)).drop (offset - lo)).take length =
      readRange data offset length := by
  have hne : hi - lo ≠ 0 := by omega
  have hoff : lo + (offset - lo) = offset := by omega
  have hmin : min length (hi - lo - (offset - lo)) = length := by omega
  rw [readRange, if_neg hne, readRange, if_neg hlen, List.drop_take, List.drop_drop, hoff,
    List.take_take, hmin]

/-! ## Slices -/

section Slice

variable {α : Type*}

/-- The part of a list between two positions. -/
def slice (l : List α) (lo hi : Nat) : List α := (l.drop lo).take (hi - lo)

@[simp] theorem length_slice (l : List α) (lo hi : Nat) :
    (slice l lo hi).length = min hi l.length - lo := by
  rw [slice, List.length_take, List.length_drop]
  omega

theorem slice_eq_nil {l : List α} {lo hi : Nat} (h : hi ≤ lo) : slice l lo hi = [] := by
  rw [slice, Nat.sub_eq_zero_of_le h, List.take_zero]

/-- Two slices that meet are one slice. -/
theorem slice_append_slice {l : List α} {lo mid hi : Nat} (hlo : lo ≤ mid) (hhi : mid ≤ hi) :
    slice l lo mid ++ slice l mid hi = slice l lo hi := by
  have hdrop : l.drop mid = (l.drop lo).drop (mid - lo) := by
    rw [List.drop_drop]
    congr 1
    omega
  have hsum : hi - lo = mid - lo + (hi - mid) := by omega
  rw [slice, slice, slice, hdrop, hsum, List.take_add]

/-- A slice of a slice is a slice of the list. -/
theorem slice_slice {l : List α} {lo hi a b : Nat} (hb : lo + b ≤ hi) :
    slice (slice l lo hi) a b = slice l (lo + a) (lo + b) := by
  rw [slice, slice, slice, List.drop_take, List.drop_drop, List.take_take]
  congr 1
  omega

theorem slice_zero (l : List α) (hi : Nat) : slice l 0 hi = l.take hi := by
  rw [slice, List.drop_zero, Nat.sub_zero]

end Slice

end Mapache.Lib
