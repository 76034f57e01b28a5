import Mapache.Fs.Diff
import Mathlib.Tactic.IntervalCases

/-!
# Names and their bytes

`to_string_lossy` on the bytes of a string. A string is the sequence of the UTF-8 encodings of its
characters, and the first character is read back from its encoding whatever follows
(`utf8Next_encode`), so that the string is what `to_string_lossy` makes of its bytes
(`toStringLossy_nameBytes`). The order of strings is that of their bytes (`nameBytes_lt_iff`).
-/

set_option autoImplicit false

namespace Mapache

open Lib

section Bytes

variable {n : Nat}

theorem toNat_ofNat_lt (h : n < 256) : (UInt8.ofNat n).toNat = n := by
  rw [UInt8.toNat_ofNat']
  exact Nat.mod_eq_of_lt h

/-- A byte within the bounds is a continuation byte. -/
theorem utf8Tail_cons {lo hi : UInt8} {k : Nat} {bs : Bytes} (hlo : lo.toNat ≤ n)
    (hhi : n ≤ hi.toNat) :
    utf8Tail lo hi (k + 1) (UInt8.ofNat n :: bs) = UInt8.ofNat n :: utf8Tail 0x80 0xbf k bs := by
  have hn : n < 256 := lt_of_le_of_lt hhi hi.toNat_lt
  rw [utf8Tail, if_pos]
  rw [UInt8.le_iff_toNat_le, UInt8.le_iff_toNat_le, toNat_ofNat_lt hn]
  exact ⟨hlo, hhi⟩

theorem utf8Lead_two (h : 0xc2 ≤ n) (h' : n ≤ 0xdf) :
    utf8Lead (UInt8.ofNat n) = some (2, 0x80, 0xbf) := by
  interval_cases n <;> rfl

theorem utf8Lead_three (h : 0xe0 ≤ n) (h' : n ≤ 0xef) :
    utf8Lead (UInt8.ofNat n) =
      some (3, if n = 0xe0 then 0xa0 else 0x80, if n = 0xed then 0x9f else 0xbf) := by
  interval_cases n <;> rfl

theorem utf8Lead_four (h : 0xf0 ≤ n) (h' : n ≤ 0xf4) :
    utf8Lead (UInt8.ofNat n) =
      some (4, if n = 0xf0 then 0x90 else 0x80, if n = 0xf4 then 0x8f else 0xbf) := by
  interval_cases n <;> rfl

theorem not_ofNat_lt (h : 0x80 ≤ n) (h' : n < 256) : ¬ UInt8.ofNat n < 0x80 := by
  rw [UInt8.lt_iff_toNat_lt, toNat_ofNat_lt h']
  exact Nat.not_lt.mpr h

end Bytes

/-- **The first character is read back from its encoding.** The cases are those of the encoding, by
the number of bytes. -/
theorem utf8Next_encode (c : Char) (rest : Bytes) :
    utf8Next ((String.utf8EncodeChar c : Bytes) ++ rest) =
      (some c, (String.utf8EncodeChar c).length) := by
  have hval : c.val.toNat < 0xd800 ∨ 0xdfff < c.val.toNat ∧ c.val.toNat < 0x110000 := c.valid
  have hofNat : Char.ofNat c.val.toNat = c := Char.ofNat_toNat c
  fun_cases String.utf8EncodeChar c with
  | case1 v h =>
    have hlt : UInt8.ofNat v < 0x80 := by
      rw [UInt8.lt_iff_toNat_lt, toNat_ofNat_lt (by omega)]
      exact Nat.lt_succ_of_le h
    simp only [List.cons_append, List.nil_append, utf8Next, if_pos hlt,
      toNat_ofNat_lt (show v < 256 by omega)]
    exact congrArg (fun d => (some d, 1)) hofNat
  | case2 v h h' =>
    have hv : v = c.val.toNat := rfl
    simp only [List.cons_append, List.nil_append, utf8Next,
      if_neg (not_ofNat_lt (n := v / 64 % 32 + 192) (by omega) (by omega)),
      utf8Lead_two (n := v / 64 % 32 + 192) (by omega) (by omega)]
    rw [utf8Tail_cons (show _ ≤ _ from Nat.le_add_left 128 _) (show v % 64 + 128 ≤ 191 by omega)]
    simp only [utf8Tail, List.length_cons, List.length_nil, List.foldl_cons, List.foldl_nil,
      reduceIte, toNat_ofNat_lt (show v % 64 + 128 < 256 by omega),
      toNat_ofNat_lt (show v / 64 % 32 + 192 < 256 by omega)]
    have hsum : (v / 64 % 32 + 192) % 2 ^ (7 - 2) * 64 + (v % 64 + 128) % 64 = c.val.toNat := by
      omega
    rw [hsum, hofNat]
  | case3 v h h' h'' =>
    have hv : v = c.val.toNat := rfl
    have hlo : (if v / 4096 % 16 + 224 = 0xe0 then (0xa0 : UInt8) else 0x80).toNat ≤
        v / 64 % 64 + 128 := by
      split
      · show 160 ≤ _
        omega
      · exact Nat.le_add_left 128 _
    have hhi : v / 64 % 64 + 128 ≤
        (if v / 4096 % 16 + 224 = 0xed then (0x9f : UInt8) else 0xbf).toNat := by
      split
      · show _ ≤ 159
        omega
      · show _ ≤ 191
        omega
    simp only [List.cons_append, List.nil_append, utf8Next,
      if_neg (not_ofNat_lt (n := v / 4096 % 16 + 224) (by omega) (by omega)),
      utf8Lead_three (n := v / 4096 % 16 + 224) (by omega) (by omega)]
    rw [utf8Tail_cons hlo hhi,
      utf8Tail_cons (show _ ≤ _ from Nat.le_add_left 128 _) (show v % 64 + 128 ≤ 191 by omega)]
    simp only [utf8Tail, List.length_cons, List.length_nil, List.foldl_cons, List.foldl_nil,
      reduceIte, toNat_ofNat_lt (show v % 64 + 128 < 256 by omega),
      toNat_ofNat_lt (show v / 64 % 64 + 128 < 256 by omega),
      toNat_ofNat_lt (show v / 4096 % 16 + 224 < 256 by omega)]
    have hsum : ((v / 4096 % 16 + 224) % 2 ^ (7 - 3) * 64 + (v / 64 % 64 + 128) % 64) * 64 +
        (v % 64 + 128) % 64 = c.val.toNat := by
      omega
    rw [hsum, hofNat]
  | case4 v h h' h'' =>
    have hv : v = c.val.toNat := rfl
    have hlo : (if v / 262144 % 8 + 240 = 0xf0 then (0x90 : UInt8) else 0x80).toNat ≤
        v / 4096 % 64 + 128 := by
      split
      · show 144 ≤ _
        omega
      · exact Nat.le_add_left 128 _
    have hhi : v / 4096 % 64 + 128 ≤
        (if v / 262144 % 8 + 240 = 0xf4 then (0x8f : UInt8) else 0xbf).toNat := by
      split
      · show _ ≤ 143
        omega
      · show _ ≤ 191
        omega
    simp only [List.cons_append, List.nil_append, utf8Next,
      if_neg (not_ofNat_lt (n := v / 262144 % 8 + 240) (by omega) (by omega)),
      utf8Lead_four (n := v / 262144 % 8 + 240) (by omega) (by omega)]
    rw [utf8Tail_cons hlo hhi,
      utf8Tail_cons (show _ ≤ _ from Nat.le_add_left 128 _)
        (show v / 64 % 64 + 128 ≤ 191 by omega),
      utf8Tail_cons (show _ ≤ _ from Nat.le_add_left 128 _) (show v % 64 + 128 ≤ 191 by omega)]
    simp only [utf8Tail, List.length_cons, List.length_nil, List.foldl_cons, List.foldl_nil,
      reduceIte, toNat_ofNat_lt (show v % 64 + 128 < 256 by omega),
      toNat_ofNat_lt (show v / 64 % 64 + 128 < 256 by omega),
      toNat_ofNat_lt (show v / 4096 % 64 + 128 < 256 by omega),
      toNat_ofNat_lt (show v / 262144 % 8 + 240 < 256 by omega)]
    have hsum : (((v / 262144 % 8 + 240) % 2 ^ (7 - 4) * 64 + (v / 4096 % 64 + 128) % 64) * 64 +
        (v / 64 % 64 + 128) % 64) * 64 + (v % 64 + 128) % 64 = c.val.toNat := by
      omega
    rw [hsum, hofNat]

theorem go_utf8 (cs : List Char) {fuel : Nat}
    (h : (cs.flatMap String.utf8EncodeChar).length ≤ fuel) :
    toStringLossy.go fuel (cs.flatMap String.utf8EncodeChar) = cs := by
  induction cs generalizing fuel with
  | nil => cases fuel <;> rfl
  | cons c cs ih =>
    have hne : String.utf8EncodeChar c ≠ [] := String.utf8EncodeChar_ne_nil
    have hnext := utf8Next_encode c (cs.flatMap String.utf8EncodeChar)
    rw [List.flatMap_cons, List.length_append] at h
    rw [List.flatMap_cons]
    cases henc : String.utf8EncodeChar c with
    | nil => exact absurd henc hne
    | cons b bs =>
      rw [henc, List.length_cons] at h
      rw [henc] at hnext
      cases fuel with
      | zero => omega
      | succ fuel =>
        rw [List.cons_append] at hnext ⊢
        have hdrop : (b :: (bs ++ cs.flatMap String.utf8EncodeChar)).drop (b :: bs).length =
            cs.flatMap String.utf8EncodeChar := by
          rw [← List.cons_append, List.drop_left]
        rw [toStringLossy.go, hnext, Option.getD_some, hdrop, ih (by omega)]

/-- **The name of a node is what `to_string_lossy` makes of its bytes.** -/
theorem toStringLossy_nameBytes (node : Node) : toStringLossy node.nameBytes = node.name := by
  rw [toStringLossy, Node.nameBytes, go_utf8 _ le_rfl, String.ofList_toList]

/-! ## The order of the names -/

section Order

variable {m n v w : Nat} {as bs : Bytes} {c d : Char} {a b : Node}

theorem cons_lt_cons_of (hm : m < 256) (hn : n < 256) (h : m < n ∨ m = n ∧ as < bs) :
    UInt8.ofNat m :: as < UInt8.ofNat n :: bs := by
  apply List.cons_lt_cons_iff.mpr
  rcases h with hlt | ⟨rfl, hrest⟩
  · left
    rwa [UInt8.lt_iff_toNat_lt, toNat_ofNat_lt hm, toNat_ofNat_lt hn]
  · exact Or.inr ⟨rfl, hrest⟩

/-- A continuation byte is the last digit in base 64. -/
theorem digit_lt (h : v % 64 < w % 64 ∨ v % 64 = w % 64 ∧ as < bs) :
    UInt8.ofNat (v % 64 + 128) :: as < UInt8.ofNat (w % 64 + 128) :: bs := by
  apply cons_lt_cons_of (by omega) (by omega)
  rcases h with hlt | ⟨heq, hrest⟩
  · exact Or.inl (Nat.add_lt_add_right hlt 128)
  · exact Or.inr ⟨congrArg (· + 128) heq, hrest⟩

theorem digits_lt (hlt : v < w) (heq : v / 4096 = w / 4096) :
    UInt8.ofNat (v / 64 % 64 + 128) :: UInt8.ofNat (v % 64 + 128) :: as <
      UInt8.ofNat (w / 64 % 64 + 128) :: UInt8.ofNat (w % 64 + 128) :: bs := by
  apply digit_lt
  by_cases h : v / 64 = w / 64
  · exact Or.inr ⟨by rw [h], digit_lt (Or.inl (by omega))⟩
  · exact Or.inl (by omega)

/-- The encoding of the smaller character is the smaller one: a longer encoding has a larger first
byte, and two encodings of one length are numbers with digits in base 64. -/
theorem utf8EncodeChar_lt (h : c < d) :
    (String.utf8EncodeChar c : Bytes) ++ as < String.utf8EncodeChar d ++ bs := by
  have hlt : c.val.toNat < d.val.toNat := h
  have hc : c.val.toNat < 0xd800 ∨ 0xdfff < c.val.toNat ∧ c.val.toNat < 0x110000 := c.valid
  have hd : d.val.toNat < 0xd800 ∨ 0xdfff < d.val.toNat ∧ d.val.toNat < 0x110000 := d.valid
  -- the cases are those of the two encodings, by the number of bytes
  rw [String.utf8EncodeChar, String.utf8EncodeChar]
  generalize c.val.toNat = v at hlt hc
  generalize d.val.toNat = w at hlt hd
  split_ifs <;> simp only [List.cons_append, List.nil_append]
  -- encodings of different lengths, and two of one byte
  all_goals
    first
    | exact absurd hlt (by omega)
    | exact cons_lt_cons_of (by omega) (by omega) (Or.inl (by omega))
    | apply cons_lt_cons_of (by omega) (by omega)
  · by_cases h : v / 64 = w / 64
    · exact Or.inr ⟨by rw [h], digit_lt (Or.inl (by omega))⟩
    · exact Or.inl (by omega)
  · by_cases h : v / 4096 = w / 4096
    · exact Or.inr ⟨by rw [h], digits_lt hlt h⟩
    · exact Or.inl (by omega)
  · by_cases h : v / 262144 = w / 262144
    · refine Or.inr ⟨by rw [h], digit_lt ?_⟩
      by_cases h' : v / 4096 = w / 4096
      · exact Or.inr ⟨by rw [h'], digits_lt hlt h'⟩
      · exact Or.inl (by omega)
    · exact Or.inl (by omega)

theorem utf8_lt {cs ds : List Char} (h : cs < ds) :
    (cs.flatMap String.utf8EncodeChar : Bytes) < ds.flatMap String.utf8EncodeChar := by
  induction cs generalizing ds with
  | nil =>
    cases ds with
    | nil => exact absurd h (List.lt_irrefl _)
    | cons d ds =>
      rw [List.flatMap_nil, List.flatMap_cons]
      cases henc : String.utf8EncodeChar d with
      | nil => exact absurd henc String.utf8EncodeChar_ne_nil
      | cons b bs => exact List.nil_lt_cons _ _
  | cons c cs ih =>
    cases ds with
    | nil => exact absurd h (List.not_lt_nil _)
    | cons d ds =>
      rw [List.flatMap_cons, List.flatMap_cons]
      rcases List.cons_lt_cons_iff.mp h with hlt | ⟨rfl, hrest⟩
      · exact utf8EncodeChar_lt hlt
      · exact List.append_left_lt (ih hrest)

/-- **Rust compares strings by their bytes**: the order is that of the characters. -/
theorem nameBytes_lt_iff : a.nameBytes < b.nameBytes ↔ a.name < b.name := by
  constructor
  · intro hlt
    rcases lt_trichotomy a.name b.name with h | h | h
    · exact h
    · rw [Node.nameBytes, Node.nameBytes, h] at hlt
      exact absurd hlt (List.lt_irrefl _)
    · exact absurd hlt (List.lt_asymm (utf8_lt (String.lt_iff.mp h)))
  · intro hlt
    exact utf8_lt (String.lt_iff.mp hlt)

end Order

end Mapache
