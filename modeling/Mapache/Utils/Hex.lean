import Mathlib.Tactic.IntervalCases
import Mapache.Common
import Mapache.Common.Error

/-!
# Hexadecimal text

`bytes_to_hex`, the two renderings of an ID that use it, and `ID::from_hex`. An ID is read from its
rendering in any case of the digits, and from nothing else (`ID.fromHex_eq_ok_iff`).
-/

set_option autoImplicit false

namespace Mapache

open Lib

/-- `bytes_to_hex`. -/
def bytesToHex (bytes : Bytes) : String :=
  String.ofList (bytes.flatMap fun b => [(b.toNat / 16).digitChar, (b.toNat % 16).digitChar])

/-- `ID::to_hex`. -/
def ID.toHex (id : ID) : String := bytesToHex id.asSlice

/-- `ID::to_short_hex`. -/
def ID.toShortHex (id : ID) (len : Nat) : String := bytesToHex (id.asSlice.take len)

/-- The bytes of a string. -/
def strBytes (s : String) : Bytes := s.toList.flatMap String.utf8EncodeChar

/-- `ID::hex_char_to_byte`. -/
def ID.hexCharToByte (c : Char) : Option UInt8 :=
  if '0' ≤ c ∧ c ≤ '9' then some (UInt8.ofNat (c.toNat - '0'.toNat))
  else if 'a' ≤ c ∧ c ≤ 'f' then some (UInt8.ofNat (c.toNat - 'a'.toNat + 10))
  else if 'A' ≤ c ∧ c ≤ 'F' then some (UInt8.ofNat (c.toNat - 'A'.toNat + 10))
  else none

/-- A digit of `ID::from_hex`. -/
def ID.hexDigit (c : Char) : Except MapacheError UInt8 :=
  match ID.hexCharToByte c with
  | some value => .ok value
  | none => .error (.format ("invalid hexadecimal character: '" ++ c.toString ++ "'"))

/-- The loop of `ID::from_hex`: two digits for each of `n` bytes. -/
def ID.hexBytes : Nat → List Char → Except MapacheError Bytes
  | 0, _ => .ok []
  | n + 1, high :: low :: chars => do
      let highNibble ← ID.hexDigit high
      let lowNibble ← ID.hexDigit low
      let bytes ← ID.hexBytes n chars
      return (highNibble <<< 4 ||| lowNibble) :: bytes
  | _ + 1, _ => .error (.format "unexpected end of hex string")

/-- `ID::from_hex`. -/
def ID.fromHex (hexStr : String) : Except MapacheError ID :=
  let hexLen := (strBytes hexStr).length
  if hexLen ≠ 64 then
    .error (.format s!"invalid ID length: expected 64 hex characters (32 bytes), found {hexLen} hex characters ({hexLen / 2} bytes)")
  else (ID.hexBytes 32 hexStr.toList).map ID.fromBytes

/-! ## Digits -/

theorem ID.hexCharToByte_digitChar {v : UInt8} (h : v < 16) :
    ID.hexCharToByte v.toNat.digitChar = some v := by
  have hlt : v.toNat < 16 := UInt8.lt_iff_toNat_lt.mp h
  have hv : v = UInt8.ofNat v.toNat := UInt8.ofNat_toNat.symm
  rw [hv]
  interval_cases v.toNat <;> decide

/-- The case of a digit does not matter. -/
theorem ID.hexCharToByte_toLower (c : Char) : ID.hexCharToByte c.toLower = ID.hexCharToByte c := by
  by_cases hupper : 'A' ≤ c ∧ c ≤ 'Z'
  · have hc : c = Char.ofNat c.toNat := (Char.ofNat_toNat c).symm
    have hlo : 65 ≤ c.toNat := UInt32.le_iff_toNat_le.mp hupper.1
    have hhi : c.toNat ≤ 90 := UInt32.le_iff_toNat_le.mp hupper.2
    rw [hc]
    interval_cases c.toNat <;> decide
  · have hlower : c.toLower = c := dif_neg hupper
    rw [hlower]

theorem ID.hexCharToByte_range {c : Char} {v : UInt8} (h : ID.hexCharToByte c = some v) :
    (48 ≤ c.toNat ∧ c.toNat ≤ 57) ∨ (97 ≤ c.toNat ∧ c.toNat ≤ 102) ∨
      (65 ≤ c.toNat ∧ c.toNat ≤ 70) := by
  have hle : ∀ a b : Char, a ≤ b → a.toNat ≤ b.toNat := fun a b h => UInt32.le_iff_toNat_le.mp h
  unfold ID.hexCharToByte at h
  split at h
  · rename_i hrange
    exact Or.inl ⟨hle _ _ hrange.1, hle _ _ hrange.2⟩
  · split at h
    · rename_i hrange
      exact Or.inr (Or.inl ⟨hle _ _ hrange.1, hle _ _ hrange.2⟩)
    · split at h
      · rename_i hrange
        exact Or.inr (Or.inr ⟨hle _ _ hrange.1, hle _ _ hrange.2⟩)
      · cases h

/-- The digits are those of the lower case rendering, in any case. -/
theorem ID.hexCharToByte_eq_some {c : Char} {v : UInt8} :
    ID.hexCharToByte c = some v ↔ v < 16 ∧ c.toLower = v.toNat.digitChar := by
  constructor
  · intro h
    have hrange := ID.hexCharToByte_range h
    rw [← Char.ofNat_toNat c] at h ⊢
    rcases hrange with ⟨hlo, hhi⟩ | ⟨hlo, hhi⟩ | ⟨hlo, hhi⟩ <;>
      (interval_cases c.toNat <;> cases h <;> decide)
  · rintro ⟨hlt, hlower⟩
    rw [← ID.hexCharToByte_toLower, hlower]
    exact ID.hexCharToByte_digitChar hlt

theorem ID.hexDigit_eq_ok {c : Char} {v : UInt8} :
    ID.hexDigit c = .ok v ↔ v < 16 ∧ c.toLower = v.toNat.digitChar := by
  rw [← ID.hexCharToByte_eq_some, ID.hexDigit]
  cases ID.hexCharToByte c <;> simp

/-- Two digits make a byte. -/
theorem ID.toNat_nibbles {high low : UInt8} (hhigh : high < 16) (hlow : low < 16) :
    (high <<< 4 ||| low).toNat = 16 * high.toNat + low.toNat := by
  have hhigh' : high.toNat < 16 := UInt8.lt_iff_toNat_lt.mp hhigh
  have hlow' : low.toNat < 2 ^ 4 := UInt8.lt_iff_toNat_lt.mp hlow
  have hshift : (high <<< 4).toNat = 2 ^ 4 * high.toNat := by
    rw [UInt8.toNat_shiftLeft, Nat.shiftLeft_eq]
    simp
    omega
  rw [UInt8.toNat_or, hshift, ← Nat.two_pow_add_eq_or_of_lt hlow']

theorem exists_nibble {n : Nat} (h : n < 16) : ∃ v : UInt8, v < 16 ∧ v.toNat = n := by
  have hn : (UInt8.ofNat n).toNat = n := by
    rw [UInt8.toNat_ofNat', Nat.mod_eq_of_lt (by omega)]
  exact ⟨UInt8.ofNat n, by rwa [UInt8.lt_iff_toNat_lt, hn], hn⟩

/-- Two digits are read as the byte that is written with them. -/
theorem ID.digits_eq_iff {high low : Char} {b : UInt8} :
    (∃ h l, ID.hexDigit high = .ok h ∧ ID.hexDigit low = .ok l ∧ h <<< 4 ||| l = b) ↔
      high.toLower = (b.toNat / 16).digitChar ∧ low.toLower = (b.toNat % 16).digitChar := by
  have hb := b.toNat_lt
  constructor
  · rintro ⟨h, l, hhigh, hlow, rfl⟩
    obtain ⟨hh, hhigh⟩ := ID.hexDigit_eq_ok.mp hhigh
    obtain ⟨hl, hlow⟩ := ID.hexDigit_eq_ok.mp hlow
    have hl' : l.toNat < 16 := UInt8.lt_iff_toNat_lt.mp hl
    rw [ID.toNat_nibbles hh hl, hhigh, hlow, Nat.mul_add_mod, Nat.mod_eq_of_lt hl',
      Nat.mul_add_div (by decide), Nat.div_eq_of_lt hl', Nat.add_zero]
    exact ⟨rfl, rfl⟩
  · rintro ⟨hhigh, hlow⟩
    obtain ⟨h, hlt, hquot⟩ := exists_nibble (show b.toNat / 16 < 16 by omega)
    obtain ⟨l, hllt, hrem⟩ := exists_nibble (show b.toNat % 16 < 16 by omega)
    refine ⟨h, l, ID.hexDigit_eq_ok.mpr ⟨hlt, by rw [hquot, hhigh]⟩,
      ID.hexDigit_eq_ok.mpr ⟨hllt, by rw [hrem, hlow]⟩, ?_⟩
    apply UInt8.toNat_inj.mp
    rw [ID.toNat_nibbles hlt hllt, hquot, hrem, Nat.div_add_mod]

/-! ## Texts -/

/-- The digits of bytes. -/
def hexDigits (bytes : Bytes) : List Char :=
  bytes.flatMap fun b => [(b.toNat / 16).digitChar, (b.toNat % 16).digitChar]

theorem toList_bytesToHex (bytes : Bytes) : (bytesToHex bytes).toList = hexDigits bytes :=
  String.toList_ofList

theorem length_hexDigits (bytes : Bytes) : (hexDigits bytes).length = 2 * bytes.length := by
  induction bytes with
  | nil => rfl
  | cons b bytes ih =>
    rw [hexDigits, List.flatMap_cons, List.length_append]
    show 2 + (hexDigits bytes).length = _
    rw [ih, List.length_cons]
    omega

theorem ID.hexBytes_cons_eq_ok {n : Nat} {high low : Char} {chars : List Char} {bytes : Bytes} :
    ID.hexBytes (n + 1) (high :: low :: chars) = .ok bytes ↔ ∃ h l rest, ID.hexDigit high = .ok h ∧
      ID.hexDigit low = .ok l ∧ ID.hexBytes n chars = .ok rest ∧ bytes = (h <<< 4 ||| l) :: rest := by
  rw [ID.hexBytes]
  cases ID.hexDigit high with
  | error e => simp [bind, Except.bind]
  | ok h =>
    cases ID.hexDigit low with
    | error e => simp [bind, Except.bind]
    | ok l =>
      cases ID.hexBytes n chars with
      | error e => simp [bind, Except.bind]
      | ok rest => simp [bind, Except.bind, pure, Except.pure, eq_comm]

/-- The loop reads bytes from their digits. -/
theorem ID.hexBytes_eq_ok {n : Nat} {chars : List Char} {bytes : Bytes} :
    ID.hexBytes n chars = .ok bytes ↔
      bytes.length = n ∧ (chars.take (2 * n)).map Char.toLower = hexDigits bytes := by
  induction n generalizing chars bytes with
  | zero => cases bytes <;> simp [ID.hexBytes, hexDigits]
  | succ n ih =>
    match chars with
    | high :: low :: chars =>
      rw [ID.hexBytes_cons_eq_ok, show 2 * (n + 1) = 2 * n + 1 + 1 from rfl, List.take_succ_cons,
        List.take_succ_cons]
      constructor
      · rintro ⟨h, l, rest, hhigh, hlow, hrest, rfl⟩
        obtain ⟨hlen, hdigits⟩ := ih.mp hrest
        obtain ⟨hh, hl⟩ := ID.digits_eq_iff.mp ⟨h, l, hhigh, hlow, rfl⟩
        exact ⟨congrArg Nat.succ hlen, by simp [hexDigits, hh, hl, hdigits]⟩
      · rintro ⟨hlen, hdigits⟩
        obtain ⟨b, rest, rfl⟩ : ∃ b rest, bytes = b :: rest :=
          List.exists_cons_of_length_eq_add_one hlen
        simp only [hexDigits, List.map_cons, List.flatMap_cons, List.cons_append,
          List.nil_append, List.cons.injEq] at hdigits
        obtain ⟨hhigh, hlow, hrest⟩ := hdigits
        obtain ⟨h, l, hh, hl, rfl⟩ := ID.digits_eq_iff.mpr ⟨hhigh, hlow⟩
        exact ⟨h, l, rest, hh, hl, ih.mpr ⟨Nat.succ.inj hlen, hrest⟩, rfl⟩
    | [] | [_] =>
      constructor
      · intro h
        cases h
      · rintro ⟨hlen, hdigits⟩
        have hle := congrArg List.length hdigits
        rw [length_hexDigits, List.length_map, hlen] at hle
        simp only [List.length_take, List.length_nil, List.length_cons] at hle
        omega

/-- A digit takes one byte. -/
theorem length_utf8EncodeChar_of_digit {c : Char} {bytes : Bytes}
    (h : c.toLower ∈ hexDigits bytes) : (String.utf8EncodeChar c).length = 1 := by
  obtain ⟨b, -, hdigit⟩ := List.mem_flatMap.mp h
  have hb := b.toNat_lt
  obtain ⟨n, hn, hlower⟩ : ∃ n, n < 16 ∧ c.toLower = n.digitChar := by
    rcases List.mem_pair.mp hdigit with hc | hc
    · exact ⟨_, by omega, hc⟩
    · exact ⟨_, by omega, hc⟩
  obtain ⟨v, hv, rfl⟩ := exists_nibble hn
  have hrange := ID.hexCharToByte_range (ID.hexCharToByte_eq_some.mpr ⟨hv, hlower⟩)
  have hle : c.val.toNat ≤ 127 := by
    rw [Char.toNat_val]
    omega
  rw [String.length_utf8EncodeChar, Char.utf8Size, if_pos (UInt32.le_iff_toNat_le.mpr hle)]

/-- A string of digits has as many bytes as digits. -/
theorem length_strBytes_of_digits {s : String} {bytes : Bytes}
    (h : s.toList.map Char.toLower = hexDigits bytes) : (strBytes s).length = 2 * bytes.length := by
  have hone : ∀ c ∈ s.toList, (String.utf8EncodeChar c).length = 1 := fun c hc =>
    length_utf8EncodeChar_of_digit (h ▸ List.mem_map_of_mem hc)
  rw [strBytes, List.length_flatMap, List.map_congr_left hone, List.map_const', List.sum_replicate_nat,
    mul_one, ← length_hexDigits, ← h, List.length_map]

theorem length_le_length_strBytes (s : String) : s.toList.length ≤ (strBytes s).length := by
  rw [strBytes]
  induction s.toList with
  | nil => rfl
  | cons c cs ih =>
    have hpos := Char.utf8Size_pos c
    rw [List.flatMap_cons, List.length_append, String.length_utf8EncodeChar, List.length_cons]
    omega

/-- **The IDs are read from their hexadecimal texts**, in any case, and from nothing else. -/
theorem ID.fromHex_eq_ok_iff {hexStr : String} {id : ID} :
    ID.fromHex hexStr = .ok id ↔ hexStr.toList.map Char.toLower = id.toHex.toList := by
  rw [ID.toHex, toList_bytesToHex]
  unfold ID.fromHex
  constructor
  · intro h
    simp only at h
    split at h
    · cases h
    · rename_i hlen
      cases hbytes : ID.hexBytes 32 hexStr.toList with
      | error e =>
        rw [hbytes] at h
        cases h
      | ok bytes =>
        rw [hbytes] at h
        cases h
        obtain ⟨hlen32, hdigits⟩ := ID.hexBytes_eq_ok.mp hbytes
        have htake := congrArg List.length hdigits
        rw [length_hexDigits, List.length_map, List.length_take, hlen32] at htake
        have hle := length_le_length_strBytes hexStr
        rw [ID.asSlice_fromBytes hlen32, ← hdigits, List.take_of_length_le (by omega)]
  · intro h
    have hlen : (strBytes hexStr).length = 64 := by
      rw [length_strBytes_of_digits h, ID.length_asSlice]
    have htake : hexStr.toList.take (2 * 32) = hexStr.toList := by
      refine List.take_of_length_le ?_
      have hchars := congrArg List.length h
      rw [List.length_map, length_hexDigits, ID.length_asSlice] at hchars
      exact hchars.le
    have hbytes : ID.hexBytes 32 hexStr.toList = .ok id.asSlice :=
      ID.hexBytes_eq_ok.mpr ⟨ID.length_asSlice id, by rw [htake, h]⟩
    simp only
    rw [if_neg (not_not.mpr hlen), hbytes]
    exact congrArg Except.ok (ID.fromBytes_asSlice id)

end Mapache
