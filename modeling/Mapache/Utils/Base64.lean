import Mathlib.Tactic.IntervalCases
import Mapache.Common.Error
import Mapache.Lib.Bytes

/-!
# Base64

`encode` and `decode` of `utils/base64.rs`, which keyfiles are written with. A text is the list of
its bytes. What was encoded is decoded again, and exactly the texts of whole groups of four
characters of the alphabet or `=` are accepted (`base64_roundTrips`). The decoder does not ask where
the `=` are, or which bits are left over before them.
-/

set_option autoImplicit false

namespace Mapache

open Lib

namespace Base64

/-- `ALPHABET[value & 0x3F]`. -/
def alphabet (value : Nat) : UInt8 :=
  let v := value % 64
  if v < 26 then UInt8.ofNat (65 + v)
  else if v < 52 then UInt8.ofNat (97 + (v - 26))
  else if v < 62 then UInt8.ofNat (48 + (v - 52))
  else if v < 63 then 43
  else 47

/-- The four characters of a chunk of one, two or three bytes. -/
def encodeChunk (b0 : UInt8) (b1 b2 : Option UInt8) : Bytes :=
  let triple := b0.toNat * 2 ^ 16 + (b1.getD 0).toNat * 2 ^ 8 + (b2.getD 0).toNat
  [alphabet (triple / 2 ^ 18), alphabet (triple / 2 ^ 12),
    if b1.isSome then alphabet (triple / 2 ^ 6) else 61, if b2.isSome then alphabet triple else 61]

/-- `encode`. -/
def encode : Bytes → Bytes
  | b0 :: b1 :: b2 :: rest => encodeChunk b0 (some b1) (some b2) ++ encode rest
  | [b0, b1] => encodeChunk b0 (some b1) none
  | [b0] => encodeChunk b0 none none
  | [] => []

/-- The value that a character of `decode` stands for. -/
def charIndex (c : UInt8) : Option Nat :=
  if 65 ≤ c ∧ c ≤ 90 then some (c.toNat - 65)
  else if 97 ≤ c ∧ c ≤ 122 then some (c.toNat - 97 + 26)
  else if 48 ≤ c ∧ c ≤ 57 then some (c.toNat - 48 + 52)
  else if c = 43 then some 62
  else if c = 47 then some 63
  else if c = 61 then some 0
  else none

/-- The error for a byte that is no character. -/
def invalidCharacter (c : UInt8) : MapacheError :=
  .format ("invalid base64 character: " ++ (Char.ofNat c.toNat).toString)

/-- The value of a character. -/
def charValue (c : UInt8) : Except MapacheError Nat :=
  match charIndex c with
  | some value => .ok value
  | none => .error (invalidCharacter c)

/-- The bytes of a group of four characters. -/
def decodeChunk (c2 c3 : UInt8) (v0 v1 v2 v3 : Nat) : Bytes :=
  let triple := v0 * 2 ^ 18 + v1 * 2 ^ 12 + v2 * 2 ^ 6 + v3
  UInt8.ofNat (triple / 2 ^ 16) ::
    ((if c2 ≠ 61 then [UInt8.ofNat (triple / 2 ^ 8)] else []) ++
      if c3 ≠ 61 then [UInt8.ofNat triple] else [])

/-- The loop of `decode`. -/
def decodeChunks : Bytes → Except MapacheError Bytes
  | c0 :: c1 :: c2 :: c3 :: rest => do
      let v0 ← charValue c0
      let v1 ← charValue c1
      let v2 ← charValue c2
      let v3 ← charValue c3
      let out ← decodeChunks rest
      return decodeChunk c2 c3 v0 v1 v2 v3 ++ out
  | _ => .ok []

/-- `decode`. -/
def decode (input : Bytes) : Except MapacheError Bytes :=
  if input.length % 4 ≠ 0 then .error (.format "invalid base64 length") else decodeChunks input

/-! ## Characters -/

/-- A character of the alphabet or `=`. -/
def IsCharacter (c : UInt8) : Prop := c = 61 ∨ ∃ value, c = alphabet value

theorem alphabet_mod (value : Nat) : alphabet (value % 64) = alphabet value := by
  rw [alphabet, alphabet, Nat.mod_mod]

theorem charIndex_alphabet (value : Nat) : charIndex (alphabet value) = some (value % 64) := by
  have hall : ∀ v < 64, charIndex (alphabet v) = some v := by decide +kernel
  rw [← alphabet_mod]
  exact hall _ (Nat.mod_lt _ (by decide))

theorem charValue_alphabet (value : Nat) : charValue (alphabet value) = .ok (value % 64) := by
  rw [charValue, charIndex_alphabet]

theorem alphabet_ne (value : Nat) : alphabet value ≠ 61 := by
  have hall : ∀ v < 64, alphabet v ≠ 61 := by decide +kernel
  rw [← alphabet_mod]
  exact hall _ (Nat.mod_lt _ (by decide))

theorem alphabet_charIndex {c : UInt8} {v : Nat} (h : charIndex c = some v) :
    c = 61 ∨ c = alphabet v := by
  have hall : ∀ n < 256, ∀ v ∈ charIndex (UInt8.ofNat n),
      UInt8.ofNat n = 61 ∨ UInt8.ofNat n = alphabet v := by decide +kernel
  have hc := hall c.toNat c.toNat_lt
  rw [UInt8.ofNat_toNat] at hc
  exact hc v h

theorem isCharacter_iff {c : UInt8} : IsCharacter c ↔ (charIndex c).isSome := by
  constructor
  · rintro (rfl | ⟨value, rfl⟩)
    · rfl
    · rw [charIndex_alphabet]
      rfl
  · intro h
    obtain ⟨v, hv⟩ := Option.isSome_iff_exists.mp h
    exact (alphabet_charIndex hv).imp_right fun hc => ⟨v, hc⟩

theorem charValue_equals : charValue 61 = .ok 0 := rfl

theorem charValue_of_isCharacter {c : UInt8} (h : IsCharacter c) : ∃ v, charValue c = .ok v := by
  obtain ⟨v, hv⟩ := Option.isSome_iff_exists.mp (isCharacter_iff.mp h)
  exact ⟨v, by rw [charValue, hv]⟩

theorem charValue_of_not {c : UInt8} (h : ¬ IsCharacter c) :
    charValue c = .error (invalidCharacter c) := by
  rw [isCharacter_iff, Option.not_isSome_iff_eq_none] at h
  rw [charValue, h]

/-! ## Round trip -/

section RoundTrip

variable {b0 b1 b2 c0 c1 c2 c3 : UInt8} {v0 v1 v2 v3 : Nat} {rest : Bytes}

theorem decodeChunks_cons (h0 : charValue c0 = .ok v0) (h1 : charValue c1 = .ok v1)
    (h2 : charValue c2 = .ok v2) (h3 : charValue c3 = .ok v3) :
    decodeChunks (c0 :: c1 :: c2 :: c3 :: rest) =
      (decodeChunks rest).map fun out => decodeChunk c2 c3 v0 v1 v2 v3 ++ out := by
  rw [decodeChunks, h0, h1, h2, h3]
  cases decodeChunks rest <;> rfl

theorem ofNat_eq_of_mod {n : Nat} {b : UInt8} (h : n % 256 = b.toNat) : UInt8.ofNat n = b :=
  UInt8.toNat_inj.mp (by rw [UInt8.toNat_ofNat', h])

/-- A number of 24 bits is put together from its four digits. -/
theorem sextets {n : Nat} (h : n < 2 ^ 24) :
    n / 2 ^ 18 % 64 * 2 ^ 18 + n / 2 ^ 12 % 64 * 2 ^ 12 + n / 2 ^ 6 % 64 * 2 ^ 6 + n % 64 = n := by
  omega

/-- A number is put together from its bytes, and its bytes are taken from it. -/
theorem triple_lt (b0 b1 b2 : UInt8) :
    b0.toNat * 2 ^ 16 + b1.toNat * 2 ^ 8 + b2.toNat < 2 ^ 24 ∧
    UInt8.ofNat ((b0.toNat * 2 ^ 16 + b1.toNat * 2 ^ 8 + b2.toNat) / 2 ^ 16) = b0 ∧
    UInt8.ofNat ((b0.toNat * 2 ^ 16 + b1.toNat * 2 ^ 8 + b2.toNat) / 2 ^ 8) = b1 ∧
    UInt8.ofNat (b0.toNat * 2 ^ 16 + b1.toNat * 2 ^ 8 + b2.toNat) = b2 := by
  have hb0 := b0.toNat_lt
  have hb1 := b1.toNat_lt
  have hb2 := b2.toNat_lt
  refine ⟨by omega, ofNat_eq_of_mod ?_, ofNat_eq_of_mod ?_, ofNat_eq_of_mod ?_⟩ <;> omega

/-- A whole chunk. -/
theorem decodeChunks_three : decodeChunks (encodeChunk b0 (some b1) (some b2) ++ rest) =
    (decodeChunks rest).map fun out => b0 :: b1 :: b2 :: out := by
  obtain ⟨hlt, h0, h1, h2⟩ := triple_lt b0 b1 b2
  simp only [encodeChunk, Option.getD_some, Option.isSome_some, if_true, List.cons_append,
    List.nil_append]
  rw [decodeChunks_cons (charValue_alphabet _) (charValue_alphabet _) (charValue_alphabet _)
    (charValue_alphabet _)]
  simp only [decodeChunk, ne_eq, alphabet_ne, not_false_eq_true, if_true]
  rw [sextets hlt, h0, h1, h2]
  simp only [List.cons_append, List.nil_append]

/-- A chunk of two bytes. -/
theorem decodeChunks_two : decodeChunks (encodeChunk b0 (some b1) none ++ rest) =
    (decodeChunks rest).map fun out => b0 :: b1 :: out := by
  obtain ⟨hlt, h0, h1, -⟩ := triple_lt b0 b1 0
  have hsum := sextets hlt
  -- the last digit is zero
  have hzero : (b0.toNat * 2 ^ 16 + b1.toNat * 2 ^ 8 + (0 : UInt8).toNat) % 64 = 0 := by
    rw [UInt8.toNat_zero]
    omega
  rw [hzero] at hsum
  simp only [encodeChunk, Option.getD_some, Option.getD_none, Option.isSome_some, Option.isSome_none,
    Bool.false_eq_true, if_true, if_false, List.cons_append, List.nil_append]
  rw [decodeChunks_cons (charValue_alphabet _) (charValue_alphabet _) (charValue_alphabet _)
    charValue_equals]
  simp only [decodeChunk, ne_eq, alphabet_ne, not_false_eq_true, not_true_eq_false, if_true, if_false]
  rw [hsum, h0, h1]
  simp only [List.cons_append, List.nil_append]

/-- A chunk of one byte. -/
theorem decodeChunks_one : decodeChunks (encodeChunk b0 none none ++ rest) =
    (decodeChunks rest).map fun out => b0 :: out := by
  obtain ⟨hlt, h0, -, -⟩ := triple_lt b0 0 0
  have hsum := sextets hlt
  -- the last two digits are zero
  have hzero : (b0.toNat * 2 ^ 16 + (0 : UInt8).toNat * 2 ^ 8 + (0 : UInt8).toNat) % 64 = 0 ∧
      (b0.toNat * 2 ^ 16 + (0 : UInt8).toNat * 2 ^ 8 + (0 : UInt8).toNat) / 2 ^ 6 % 64 = 0 := by
    rw [UInt8.toNat_zero]
    omega
  rw [hzero.1, hzero.2] at hsum
  refine (decodeChunks_cons (charValue_alphabet _) (charValue_alphabet _) charValue_equals
    charValue_equals).trans ?_
  simp only [decodeChunk, ne_eq, not_true_eq_false, if_false, Option.getD_none]
  rw [hsum, h0]
  rfl

theorem decodeChunks_encode (bytes : Bytes) : decodeChunks (encode bytes) = .ok bytes := by
  fun_induction encode bytes with
  | case1 b0 b1 b2 rest ih => rw [decodeChunks_three, ih, Except.map]
  | case2 b0 b1 => exact @decodeChunks_two b0 b1 []
  | case3 b0 => exact @decodeChunks_one b0 []
  | case4 => rfl

theorem length_encode (bytes : Bytes) : (encode bytes).length = 4 * ((bytes.length + 2) / 3) := by
  fun_induction encode bytes with
  | case1 b0 b1 b2 rest ih =>
    rw [List.length_append, ih]
    simp only [encodeChunk, List.length_cons, List.length_nil]
    omega
  | case2 | case3 => simp [encodeChunk]
  | case4 => rfl

theorem decode_encode (bytes : Bytes) : decode (encode bytes) = .ok bytes := by
  have hlen : (encode bytes).length % 4 = 0 := by
    rw [length_encode, Nat.mul_mod_right]
  rw [decode, if_neg (not_not.mpr hlen), decodeChunks_encode]

end RoundTrip

/-! ## Accepted texts -/

/-- Groups of characters are decoded. -/
theorem decodeChunks_of_characters {text : Bytes} (h : ∀ c ∈ text, IsCharacter c) :
    ∃ bytes, decodeChunks text = .ok bytes := by
  fun_induction decodeChunks text with
  | case1 c0 c1 c2 c3 rest ih =>
    obtain ⟨v0, h0⟩ := charValue_of_isCharacter (h c0 (by simp))
    obtain ⟨v1, h1⟩ := charValue_of_isCharacter (h c1 (by simp))
    obtain ⟨v2, h2⟩ := charValue_of_isCharacter (h c2 (by simp))
    obtain ⟨v3, h3⟩ := charValue_of_isCharacter (h c3 (by simp))
    obtain ⟨out, hout⟩ := ih fun c hc => h c (by simp [hc])
    simp [h0, h1, h2, h3, hout, bind, Except.bind, pure, Except.pure]
  | case2 => exact ⟨[], rfl⟩

/-- The first byte that is no character is the one of the error. -/
theorem decodeChunks_of_not {front rest : Bytes} {c : UInt8}
    (hlen : (front ++ c :: rest).length % 4 = 0) (hfront : ∀ d ∈ front, IsCharacter d)
    (h : ¬ IsCharacter c) : decodeChunks (front ++ c :: rest) = .error (invalidCharacter c) := by
  have herr := charValue_of_not h
  match front with
  | [] =>
    match rest with
    | c1 :: c2 :: c3 :: rest => simp [decodeChunks, herr, bind, Except.bind]
    | [] | [_] | [_, _] => simp at hlen
  | [f0] =>
    obtain ⟨v0, h0⟩ := charValue_of_isCharacter (hfront f0 (by simp))
    match rest with
    | c2 :: c3 :: rest => simp [decodeChunks, h0, herr, bind, Except.bind]
    | [] | [_] => simp at hlen
  | [f0, f1] =>
    obtain ⟨v0, h0⟩ := charValue_of_isCharacter (hfront f0 (by simp))
    obtain ⟨v1, h1⟩ := charValue_of_isCharacter (hfront f1 (by simp))
    match rest with
    | c3 :: rest => simp [decodeChunks, h0, h1, herr, bind, Except.bind]
    | [] => simp at hlen
  | [f0, f1, f2] =>
    obtain ⟨v0, h0⟩ := charValue_of_isCharacter (hfront f0 (by simp))
    obtain ⟨v1, h1⟩ := charValue_of_isCharacter (hfront f1 (by simp))
    obtain ⟨v2, h2⟩ := charValue_of_isCharacter (hfront f2 (by simp))
    simp [decodeChunks, h0, h1, h2, herr, bind, Except.bind]
  | f0 :: f1 :: f2 :: f3 :: front =>
    obtain ⟨v0, h0⟩ := charValue_of_isCharacter (hfront f0 (by simp))
    obtain ⟨v1, h1⟩ := charValue_of_isCharacter (hfront f1 (by simp))
    obtain ⟨v2, h2⟩ := charValue_of_isCharacter (hfront f2 (by simp))
    obtain ⟨v3, h3⟩ := charValue_of_isCharacter (hfront f3 (by simp))
    have hlen' : (front ++ c :: rest).length % 4 = 0 := by
      simp only [List.cons_append, List.length_cons] at hlen
      omega
    have ih := decodeChunks_of_not hlen' (fun d hd => hfront d (by simp [hd])) h
    rw [List.cons_append, List.cons_append, List.cons_append, List.cons_append,
      decodeChunks_cons h0 h1 h2 h3, ih]
    rfl

/-- **Base64 loses nothing and accepts nothing else.** What was encoded is decoded again; a text is
decoded exactly when it has whole groups of characters, and otherwise the error says that its length
is wrong or which byte is the first one that is no character. -/
theorem base64_roundTrips (bytes text : Bytes) :
    decode (encode bytes) = .ok bytes ∧
      ((∃ out, decode text = .ok out) ↔ text.length % 4 = 0 ∧ ∀ c ∈ text, IsCharacter c) ∧
      (text.length % 4 ≠ 0 → decode text = .error (.format "invalid base64 length")) ∧
      ∀ front c rest, text = front ++ c :: rest → text.length % 4 = 0 →
        (∀ d ∈ front, IsCharacter d) → ¬ IsCharacter c →
          decode text = .error (invalidCharacter c) := by
  have hnot : ∀ front c rest, text = front ++ c :: rest → text.length % 4 = 0 →
      (∀ d ∈ front, IsCharacter d) → ¬ IsCharacter c →
        decode text = .error (invalidCharacter c) := by
    rintro front c rest rfl hlen hfront hc
    rw [decode, if_neg (not_not.mpr hlen), decodeChunks_of_not hlen hfront hc]
  refine ⟨decode_encode bytes, ?_, fun hlen => if_pos hlen, hnot⟩
  constructor
  · rintro ⟨out, hout⟩
    have hlen : text.length % 4 = 0 := by
      by_contra hlen
      rw [decode, if_pos hlen] at hout
      cases hout
    refine ⟨hlen, fun c hc => ?_⟩
    by_contra hnone
    -- the first byte that is no character would be the error
    obtain ⟨b, hfind⟩ : ∃ b, text.find? (fun c => !(charIndex c).isSome) = some b := by
      refine Option.isSome_iff_exists.mp (List.find?_isSome.mpr ⟨c, hc, ?_⟩)
      rw [isCharacter_iff] at hnone
      simp [hnone]
    obtain ⟨hb, front, rest, heq, hfront⟩ := List.find?_eq_some_iff_append.mp hfind
    have herr := hnot front b rest heq hlen
      (fun d hd => isCharacter_iff.mpr (by simpa using hfront d hd))
      (fun hchar => by simp [isCharacter_iff.mp hchar] at hb)
    rw [hout] at herr
    cases herr
  · rintro ⟨hlen, hall⟩
    rw [decode, if_neg (not_not.mpr hlen)]
    exact decodeChunks_of_characters hall

end Base64

end Mapache
