import Mathlib.Data.Nat.Bitwise
import Mathlib.Logic.Function.Iterate

/-!
# Sets of numbers as bits

A word of `w` bits as a set of numbers below `w`. `foldBits` visits the members from the smallest
one on, clearing the lowest bit each time with `s &&& (s - 1)`, and `closure` adds to every member
of a mask its successor until nothing is added.
-/

set_option autoImplicit false

namespace Mapache.Lib

variable {w : Nat}

/-! ## The lowest bit -/

/-- `trailing_zeros`: the number of the lowest bit that is set. -/
def trailingZeros (s : BitVec w) : Nat := ((List.range w).find? s.getLsbD).getD w

/-- The lowest bit of a word that is not zero is set, and none below it is. -/
theorem trailingZeros_spec {s : BitVec w} (h : s ≠ 0#w) :
    trailingZeros s < w ∧ s.getLsbD (trailingZeros s) = true ∧
      ∀ j, j < trailingZeros s → s.getLsbD j = false := by
  unfold trailingZeros
  cases hfind : (List.range w).find? s.getLsbD with
  | none =>
    refine absurd (BitVec.eq_of_getLsbD_eq fun j hj => ?_) h
    have hnot := List.find?_eq_none.mp hfind j (List.mem_range.mpr hj)
    simpa using hnot
  | some i =>
    rw [Option.getD_some]
    refine ⟨List.mem_range.mp (List.mem_of_find?_eq_some hfind), List.find?_some hfind, ?_⟩
    intro j hj
    have hnot := (List.find?_range_eq_some.mp hfind).2.2 j hj
    simpa using hnot

/-- A number whose lowest bit is `i`. -/
theorem exists_eq_of_lowest {n i : Nat} (hset : n.testBit i = true)
    (hlow : ∀ j, j < i → n.testBit j = false) : ∃ k, n = 2 ^ (i + 1) * k + 2 ^ i := by
  refine ⟨n / 2 ^ (i + 1), ?_⟩
  have hmod : n % 2 ^ (i + 1) = 2 ^ i := by
    apply Nat.eq_of_testBit_eq
    intro j
    rw [Nat.testBit_mod_two_pow, Nat.testBit_two_pow]
    rcases lt_trichotomy j i with hlt | rfl | hgt
    · rw [hlow j hlt, Bool.and_false]
      simp [Nat.ne_of_gt hlt]
    · simp [hset]
    · have hnlt : ¬ j < i + 1 := by omega
      simp [hnlt, Nat.ne_of_lt hgt]
  rw [← hmod]
  exact (Nat.div_add_mod n _).symm

/-- Subtracting one clears the lowest bit and leaves the higher ones. -/
theorem testBit_sub_one {n i : Nat} (hset : n.testBit i = true)
    (hlow : ∀ j, j < i → n.testBit j = false) :
    (n - 1).testBit i = false ∧ ∀ j, i < j → (n - 1).testBit j = n.testBit j := by
  obtain ⟨k, hk⟩ := exists_eq_of_lowest hset hlow
  have hpos : 0 < 2 ^ i := Nat.two_pow_pos i
  have hpow : 2 ^ (i + 1) = 2 * 2 ^ i := Nat.pow_succ'
  have hsub : n - 1 = 2 ^ (i + 1) * k + (2 ^ i - 1) := by omega
  have hlt : 2 ^ i - 1 < 2 ^ (i + 1) := by omega
  have hlt' : 2 ^ i < 2 ^ (i + 1) := by omega
  -- `n` is `2 ^ (i + 1) * k + 2 ^ i`, so the part above bit `i` is the same before and after
  constructor
  · rw [hsub, Nat.testBit_two_pow_mul_add k hlt, if_pos (Nat.lt_succ_self i)]
    exact Nat.testBit_lt_two_pow (by omega)
  · intro j hj
    rw [hsub, hk, Nat.testBit_two_pow_mul_add k hlt, Nat.testBit_two_pow_mul_add k hlt',
      if_neg (by omega), if_neg (by omega)]

/-- `s &= s - 1` clears the lowest bit. -/
theorem getLsbD_and_sub_one {s : BitVec w} (h : s ≠ 0#w) (j : Nat) :
    (s &&& (s - 1#w)).getLsbD j = (s.getLsbD j && decide (j ≠ trailingZeros s)) := by
  obtain ⟨hlt, hset, hlow⟩ := trailingZeros_spec h
  have hpos : 0 < s.toNat := by
    rw [Nat.pos_iff_ne_zero]
    exact fun hzero => h (BitVec.eq_of_toNat_eq (by simpa using hzero))
  have hw : 0 < w := Nat.zero_lt_of_lt hlt
  have hnat : (s - 1#w).toNat = s.toNat - 1 := by
    have hone : (1#w).toNat = 1 := by
      rw [BitVec.toNat_ofNat]
      exact Nat.mod_eq_of_lt (Nat.one_lt_two_pow hw.ne')
    rw [BitVec.toNat_sub_of_le (by rw [BitVec.le_def, hone]; exact hpos), hone]
  obtain ⟨hclear, hhigh⟩ := testBit_sub_one (n := s.toNat) hset hlow
  rw [BitVec.getLsbD_and]
  rcases lt_trichotomy j (trailingZeros s) with hj | rfl | hj
  · rw [hlow j hj, Bool.false_and, Bool.false_and]
  · rw [BitVec.getLsbD, BitVec.getLsbD, hnat, hclear]
    simp
  · rw [BitVec.getLsbD, BitVec.getLsbD, hnat, hhigh j hj, Bool.and_self]
    simp [Nat.ne_of_gt hj]

/-- The word with one member. -/
theorem getLsbD_twoPow_iff {i j : Nat} (h : i < w) :
    (BitVec.twoPow w i).getLsbD j = true ↔ j = i := by
  rw [BitVec.getLsbD_twoPow, Bool.and_eq_true, decide_eq_true_iff, decide_eq_true_iff]
  exact ⟨fun hij => hij.2.symm, fun hji => ⟨h, hji.symm⟩⟩

/-! ## Visiting the members -/

/-- The loop `while s != 0 { i = s.trailing_zeros(); s &= s - 1; .. }` over the members of a set.
The fuel bounds the rounds. -/
def foldBits {β : Type} (f : β → Nat → β) : Nat → BitVec w → β → β
  | 0, _, acc => acc
  | fuel + 1, s, acc =>
    if s = 0#w then acc else foldBits f fuel (s &&& (s - 1#w)) (f acc (trailingZeros s))

/-- The loop that collects bits has those of every member. Each round clears the lowest bit, so that
as many rounds as the word has bits are enough. -/
theorem getLsbD_foldBits (g : Nat → BitVec w) (fuel : Nat) (s acc : BitVec w)
    (hfuel : ∀ i, s.getLsbD i = true → w ≤ i + fuel) (j : Nat) :
    (foldBits (fun acc i => acc ||| g i) fuel s acc).getLsbD j = true ↔
      acc.getLsbD j = true ∨ ∃ i, s.getLsbD i = true ∧ (g i).getLsbD j = true := by
  induction fuel generalizing s acc with
  | zero =>
    rw [foldBits]
    refine (or_iff_left ?_).symm
    rintro ⟨i, hi, -⟩
    have hle := hfuel i hi
    have hlt := BitVec.lt_of_getLsbD hi
    omega
  | succ fuel ih =>
    rw [foldBits]
    split
    · rename_i hzero
      subst hzero
      simp
    · rename_i hne
      obtain ⟨hlt, hset, hlow⟩ := trailingZeros_spec hne
      have hbits : ∀ i, (s &&& (s - 1#w)).getLsbD i = true ↔
          s.getLsbD i = true ∧ i ≠ trailingZeros s := by
        intro i
        rw [getLsbD_and_sub_one hne, Bool.and_eq_true, decide_eq_true_iff]
      -- what the round collects is what the lowest member stands for
      rw [ih]
      · simp only [hbits, BitVec.getLsbD_or, Bool.or_eq_true]
        constructor
        · rintro ((hacc | hg) | ⟨i, ⟨hi, -⟩, hg⟩)
          · exact Or.inl hacc
          · exact Or.inr ⟨_, hset, hg⟩
          · exact Or.inr ⟨i, hi, hg⟩
        · rintro (hacc | ⟨i, hi, hg⟩)
          · exact Or.inl (Or.inl hacc)
          · by_cases heq : i = trailingZeros s
            · exact Or.inl (Or.inr (heq ▸ hg))
            · exact Or.inr ⟨i, ⟨hi, heq⟩, hg⟩
      · -- the members that are left are above the lowest one
        intro i hi
        obtain ⟨hi, hne'⟩ := (hbits i).mp hi
        have hle := hfuel _ hset
        have hnlt : ¬ i < trailingZeros s := fun hlt' => by
          rw [hlow i hlt'] at hi
          cases hi
        omega

/-! ## Closing a set -/

/-- Every member of the mask adds its successor. -/
def spread (mask s : BitVec w) : BitVec w := s ||| ((s &&& mask) <<< 1)

/-- The loop that spreads until nothing is added. The fuel bounds the rounds. -/
def closure (mask : BitVec w) : Nat → BitVec w → BitVec w
  | 0, s => s
  | fuel + 1, s => if spread mask s = s then s else closure mask fuel (spread mask s)

/-- A set that does not grow stays as it is. -/
theorem closure_eq_iterate (mask : BitVec w) (fuel : Nat) (s : BitVec w) :
    closure mask fuel s = (spread mask)^[fuel] s := by
  induction fuel generalizing s with
  | zero => rfl
  | succ fuel ih =>
    rw [closure, Function.iterate_succ_apply]
    split
    · -- the loop stops early, where further rounds change nothing
      rename_i hstable
      rw [hstable, Function.iterate_fixed hstable]
    · exact ih _

theorem getLsbD_spread {mask s : BitVec w} {j : Nat} (hj : j < w) :
    (spread mask s).getLsbD j = true ↔ s.getLsbD j = true ∨
      ∃ i, j = i + 1 ∧ s.getLsbD i = true ∧ mask.getLsbD i = true := by
  rw [spread, BitVec.getLsbD_or, Bool.or_eq_true, BitVec.getLsbD_shiftLeft]
  cases j with
  | zero => simp
  | succ i => simp [hj]

/-- The bits after some rounds: a member reaches another number through the mask. -/
theorem getLsbD_iterate_spread {mask s : BitVec w} (fuel : Nat) {j : Nat} (hj : j < w) :
    ((spread mask)^[fuel] s).getLsbD j = true ↔
      ∃ i, i ≤ j ∧ j ≤ i + fuel ∧ s.getLsbD i = true ∧
        ∀ k, i ≤ k → k < j → mask.getLsbD k = true := by
  induction fuel generalizing j with
  | zero =>
    rw [Function.iterate_zero_apply]
    constructor
    · exact fun h => ⟨j, le_refl j, le_refl j, h, fun k hik hkj => absurd hkj (by omega)⟩
    · rintro ⟨i, hij, hji, hi, -⟩
      rwa [show j = i by omega]
  | succ fuel ih =>
    rw [Function.iterate_succ_apply', getLsbD_spread hj, ih hj]
    constructor
    · rintro (⟨i, hij, hji, hi, hmask⟩ | ⟨j, rfl, hprev, hlast⟩)
      · exact ⟨i, hij, by omega, hi, hmask⟩
      · obtain ⟨i, hij, hji, hi, hmask⟩ := (ih (by omega)).mp hprev
        refine ⟨i, by omega, by omega, hi, fun k hik hkj => ?_⟩
        rcases Nat.lt_succ_iff_lt_or_eq.mp hkj with hlt | rfl
        · exact hmask k hik hlt
        · exact hlast
    · rintro ⟨i, hij, hji, hi, hmask⟩
      -- the last round is needed only where it is the furthest number that is reached
      by_cases hnear : j ≤ i + fuel
      · exact Or.inl ⟨i, hij, hnear, hi, hmask⟩
      · obtain ⟨j, rfl⟩ := Nat.exists_eq_succ_of_ne_zero (show j ≠ 0 by omega)
        refine Or.inr ⟨j, rfl, (ih (by omega)).mpr ⟨i, by omega, by omega, hi, ?_⟩,
          hmask j (by omega) (Nat.lt_succ_self j)⟩
        exact fun k hik hkj => hmask k hik (by omega)

/-- **The closed set**: what a member reaches through the mask. As many rounds as the word has bits
are enough. -/
theorem getLsbD_closure {mask s : BitVec w} {j : Nat} (hj : j < w) :
    (closure mask w s).getLsbD j = true ↔
      ∃ i, i ≤ j ∧ s.getLsbD i = true ∧ ∀ k, i ≤ k → k < j → mask.getLsbD k = true := by
  rw [closure_eq_iterate, getLsbD_iterate_spread w hj]
  constructor
  · rintro ⟨i, hij, -, hi, hmask⟩
    exact ⟨i, hij, hi, hmask⟩
  · rintro ⟨i, hij, hi, hmask⟩
    exact ⟨i, hij, by omega, hi, hmask⟩

end Mapache.Lib
