import Mapache.Chunker.Lookup

/-!
# The rolling cut and the plain Gear cut

`Chunker::cut` rolls its hash over two bytes at a time, with a table and masks that are shifted by
one bit for the first of the two. The plain Gear hash (`gearHash`) takes one byte at a time, and the
plain cut (`IsGearCut`) is at the first index whose hash has no bit of the mask.

The paired loops stop where the plain loop does (`roll_spec`, `rollPhases_spec`). The step that
aligns an odd start does not: it returns the index behind the byte, and it takes the small mask also
where the center is not behind it. `cut_isGearCut_iff` says for which byte strings the two agree all
the same.
-/

set_option autoImplicit false

namespace Mapache

open Lib

namespace Chunker

variable (c : Chunker) (data : Bytes)

/-- The plain Gear hash of the bytes from `min_size` up to the index `n`, which is not included. -/
def hashBelow (n : Nat) : UInt64 :=
  ((data.drop c.minSize).take (n - c.minSize)).foldl (fun hash byte => 2 * hash + c.gear byte) 0

/-- The plain Gear hash at the index `i`: it takes the bytes of `data[min_size..=i]` one by one. -/
def gearHash (i : Nat) : UInt64 := c.hashBelow data (i + 1)

/-- The longest chunk. -/
def limit : Nat := min data.length c.maxSize

/-- The end of the search. -/
def searchEnd : Nat := evenPart (c.limit data)

/-- The center rounded down to even. -/
def center : Nat := evenPart (min c.normalSize (c.limit data))

/-- The mask in force at an index. -/
def maskAt (i : Nat) : UInt64 := if i < c.center data then c.maskS else c.maskL

/-- The hash and the mask have no bit in common. -/
def Passes (i : Nat) : Prop := c.gearHash data i &&& c.maskAt data i = 0

/-- The least index from `n` on that passes, or the longest chunk if there is none. -/
def FirstPass (n result : Nat) : Prop :=
  (n ≤ result ∧ result < c.searchEnd data ∧ c.Passes data result ∧
    ∀ j, n ≤ j → j < result → ¬ c.Passes data j) ∨
  ((∀ j, n ≤ j → j < c.searchEnd data → ¬ c.Passes data j) ∧ result = c.limit data)

/-- The plain Gear cut. -/
def IsGearCut (result : Nat) : Prop := c.FirstPass data c.minSize result

/-- What the alignment of an odd start has to do with the first byte and the second one, so that
nothing goes wrong. -/
def AlignmentAgrees : Prop :=
  (c.gear (data.getD c.minSize 0) &&& c.maskS ≠ 0 ∧
    (c.normalSize = c.minSize → c.gear (data.getD c.minSize 0) &&& c.maskL ≠ 0)) ∨
  (c.gear (data.getD c.minSize 0) &&& c.maskS = 0 ∧ c.normalSize = c.minSize ∧
    c.gear (data.getD c.minSize 0) &&& c.maskL ≠ 0 ∧
    (c.limit data = c.minSize + 1 ∨
      (c.minSize + 1 < c.searchEnd data ∧
        (2 * c.gear (data.getD c.minSize 0) + c.gear (data.getD (c.minSize + 1) 0)) &&& c.maskL = 0)))

/-- The shifted table and the shifted masks of the chunker. -/
structure Doubles : Prop where
  gear_ls : ∀ byte, c.gearLs byte = c.gear byte <<< 1
  mask_s : c.maskS.toNat < 2 ^ 48 ∧ c.maskSLs = c.maskS <<< 1
  mask_l : c.maskL.toNat < 2 ^ 48 ∧ c.maskLLs = c.maskL <<< 1

/-! ## Shifted words -/

section Words

theorem shiftLeft_one_eq (x : UInt64) : x <<< 1 = 2 * x := by
  rw [← UInt64.toNat_inj, UInt64.toNat_shiftLeft, UInt64.toNat_mul, Nat.shiftLeft_eq]
  have h : (1 : UInt64).toNat % 64 = 1 := rfl
  have h2 : (2 : UInt64).toNat = 2 := rfl
  rw [h, h2, pow_one, Nat.mul_comm]

theorem shiftLeft_two_eq (x : UInt64) : x <<< 2 = 2 * (2 * x) := by
  rw [← UInt64.toNat_inj, UInt64.toNat_shiftLeft, UInt64.toNat_mul, UInt64.toNat_mul, Nat.shiftLeft_eq]
  have h : (2 : UInt64).toNat % 64 = 2 := rfl
  have h2 : (2 : UInt64).toNat = 2 := rfl
  rw [h, h2]
  omega

/-- A word and a mask may be shifted together when the mask does not use the highest bit. -/
theorem and_shiftLeft_eq_zero_iff {x mask : UInt64} (hmask : mask.toNat < 2 ^ 48) :
    (2 * x : UInt64) &&& (mask <<< 1) = 0 ↔ x &&& mask = 0 := by
  have hle : x.toNat &&& mask.toNat ≤ mask.toNat := Nat.and_le_right
  rw [← shiftLeft_one_eq]
  rw [← UInt64.shiftLeft_and, shiftLeft_one_eq, ← UInt64.toNat_inj, ← UInt64.toNat_inj,
    UInt64.toNat_mul, UInt64.toNat_and]
  have h2 : (2 : UInt64).toNat = 2 := rfl
  have h0 : (0 : UInt64).toNat = 0 := rfl
  rw [h2, h0]
  omega

end Words

/-! ## The paired loops -/

section Loops

variable {c : Chunker} {data : Bytes} {n stop : Nat}

/-- One byte more. -/
theorem hashBelow_succ (hn : c.minSize ≤ n) (hlt : n < data.length) :
    c.hashBelow data (n + 1) = 2 * c.hashBelow data n + c.gear (data.getD n 0) := by
  have htake : (data.drop c.minSize).take (n + 1 - c.minSize) =
      (data.drop c.minSize).take (n - c.minSize) ++ [data.getD n 0] := by
    rw [Nat.succ_sub hn, List.take_add_one, List.getElem?_drop, Nat.add_sub_cancel' hn,
      List.getD_eq_getElem?_getD, List.getElem?_eq_getElem hlt]
    rfl
  rw [hashBelow, htake, List.foldl_append]
  rfl

/-- What a paired loop returns: the first index in its range whose hash has no bit of the mask, or
the hash of all bytes below the end of the range. -/
def RollSpec (c : Chunker) (data : Bytes) (mask : UInt64) (stop n : Nat) : Nat ⊕ Nat × UInt64 → Prop
  | .inl result => n ≤ result ∧ result < stop ∧ c.gearHash data result &&& mask = 0 ∧
      ∀ j, n ≤ j → j < result → c.gearHash data j &&& mask ≠ 0
  | .inr (n', fp) => n' = max n stop ∧ fp = c.hashBelow data n' ∧
      ∀ j, n ≤ j → j < stop → c.gearHash data j &&& mask ≠ 0

/-- **The paired loop stops where the plain loop does.** -/
theorem roll_spec (hgear : ∀ byte, c.gearLs byte = c.gear byte <<< 1) {mask : UInt64}
    (hmask : mask.toNat < 2 ^ 48) {slice : Bytes}
    (hslice : ∀ j, j < stop → slice.getD j 0 = data.getD j 0)
    (hstop : stop ≤ data.length) (heven : stop % 2 = 0) (hn : c.minSize ≤ n)
    (haligned : n % 2 = 0 ∨ stop ≤ n) :
    RollSpec c data mask stop n
      (c.roll (mask <<< 1) mask slice stop n (c.hashBelow data n)) := by
  induction hk : stop - n using Nat.strongRecOn generalizing n with
  | ind k ih =>
    subst hk
    unfold roll
    by_cases hlt : n < stop
    · have hfirst : c.hashBelow data (n + 1) = 2 * c.hashBelow data n + c.gear (data.getD n 0) :=
        hashBelow_succ hn (by omega)
      have hsecond : c.hashBelow data (n + 1 + 1) =
          2 * c.hashBelow data (n + 1) + c.gear (data.getD (n + 1) 0) :=
        hashBelow_succ (by omega) (by omega)
      have hfp₀ : (c.hashBelow data n <<< 2) + c.gearLs (slice.getD n 0) = 2 * c.gearHash data
          n := by
        rw [gearHash, hfirst, hslice n hlt, hgear, shiftLeft_one_eq, shiftLeft_two_eq,
          UInt64.mul_add]
      have hfp₁ : 2 * c.gearHash data n + c.gear (slice.getD (n + 1) 0) = c.gearHash data
          (n + 1) := by
        rw [gearHash, gearHash, hsecond, hslice (n + 1) (by omega)]
      rw [if_pos hlt]
      dsimp only
      rw [hfp₀, hfp₁]
      split
      · rename_i hzero
        rw [and_shiftLeft_eq_zero_iff hmask] at hzero
        exact ⟨le_refl n, hlt, hzero, fun j hj hjn => by omega⟩
      · rename_i hfirstBit
        rw [and_shiftLeft_eq_zero_iff hmask] at hfirstBit
        split
        · rename_i hzero
          refine ⟨by omega, by omega, hzero, fun j hj hjn => ?_⟩
          obtain rfl : j = n := by omega
          exact hfirstBit
        · rename_i hsecondBit
          have hrec := ih (stop - (n + 2)) (by omega) (n := n + 2) (by omega) (by omega) rfl
          have hskip : ∀ j, n ≤ j → j < n + 2 → c.gearHash data j &&& mask ≠ 0 := by
            intro j hj hjn
            obtain rfl | rfl : j = n ∨ j = n + 1 := by omega
            · exact hfirstBit
            · exact hsecondBit
          rw [gearHash]
          revert hrec
          cases c.roll (mask <<< 1) mask slice stop (n + 2) (c.hashBelow data (n + 1 + 1)) with
          | inl result =>
            rintro ⟨hle, hresult, hzero, hleast⟩
            refine ⟨by omega, hresult, hzero, fun j hj hjr => ?_⟩
            by_cases hjn : j < n + 2
            · exact hskip j hj hjn
            · exact hleast j (by omega) hjr
          | inr rest =>
            rintro ⟨hend, hfp, hnone⟩
            refine ⟨by rw [hend]; omega, hfp, fun j hj hjs => ?_⟩
            by_cases hjn : j < n + 2
            · exact hskip j hj hjn
            · exact hnone j (by omega) hjs
    · rw [if_neg hlt]
      exact ⟨by omega, rfl, fun j hj hjs => by omega⟩

theorem evenPart_mod_two (n : Nat) : evenPart n % 2 = 0 := Nat.mul_mod_left _ 2

theorem center_le_searchEnd : c.center data ≤ c.searchEnd data := by
  have hle : min c.normalSize (c.limit data) ≤ c.limit data := Nat.min_le_right _ _
  unfold center searchEnd evenPart
  omega

theorem searchEnd_le_length : c.searchEnd data ≤ data.length :=
  (evenPart_le _).trans (Nat.min_le_left _ _)

/-- The bytes of the search slice are those of the data. -/
theorem getD_take_searchEnd {j : Nat} (hj : j < c.searchEnd data) :
    (data.take (c.searchEnd data)).getD j 0 = data.getD j 0 := by
  rw [List.getD_eq_getElem?_getD, List.getD_eq_getElem?_getD, List.getElem?_take_of_lt hj]

/-- **The two phases find the first index that passes.** -/
theorem rollPhases_spec (hdoubles : c.Doubles) (hn : c.minSize ≤ n)
    (haligned : n % 2 = 0 ∨ c.searchEnd data ≤ n) :
    c.FirstPass data n (c.rollPhases (data.take (c.searchEnd data)) (c.center data) (c.searchEnd data)
      (c.limit data) n (c.hashBelow data n)) := by
  have hmid : c.center data ≤ c.searchEnd data := center_le_searchEnd
  have hlen : c.searchEnd data ≤ data.length := searchEnd_le_length
  have hpasses₁ : ∀ j, j < c.center data → (c.Passes data j ↔ c.gearHash data j &&& c.maskS = 0) := by
    intro j hj
    rw [Passes, maskAt, if_pos hj]
  have hpasses₂ : ∀ j, c.center data ≤ j → (c.Passes data j ↔ c.gearHash data j &&& c.maskL = 0) := by
    intro j hj
    rw [Passes, maskAt, if_neg (by omega)]
  have hfirst : RollSpec c data c.maskS (c.center data) n (c.roll (c.maskS <<< 1) c.maskS
      (data.take (c.searchEnd data)) (c.center data) n (c.hashBelow data n)) :=
    roll_spec hdoubles.gear_ls hdoubles.mask_s.1
      (fun j hj => getD_take_searchEnd (by omega)) (by omega)
      (evenPart_mod_two _) hn (by omega)
  rw [rollPhases, hdoubles.mask_s.2, hdoubles.mask_l.2]
  revert hfirst
  cases c.roll (c.maskS <<< 1) c.maskS (data.take (c.searchEnd data)) (c.center data) n
      (c.hashBelow data n) with
  | inl result =>
    rintro ⟨hle, hlt, hzero, hleast⟩
    dsimp only
    refine Or.inl ⟨hle, by omega, (hpasses₁ result hlt).mpr hzero, fun j hj hjr hpass => ?_⟩
    exact hleast j hj hjr ((hpasses₁ j (by omega)).mp hpass)
  | inr rest =>
    rintro ⟨hstart, hfp, hnone₁⟩
    have hskip : ∀ j, n ≤ j → j < rest.1 → ¬ c.Passes data j := by
      intro j hj hjr hpass
      have hjmid : j < c.center data := by omega
      exact hnone₁ j hj hjmid ((hpasses₁ j hjmid).mp hpass)
    have hcenter : c.center data % 2 = 0 := evenPart_mod_two _
    have hsecond : RollSpec c data c.maskL (c.searchEnd data) rest.1 (c.roll (c.maskL <<< 1) c.maskL
        (data.take (c.searchEnd data)) (c.searchEnd data) rest.1 (c.hashBelow data rest.1)) :=
      roll_spec hdoubles.gear_ls hdoubles.mask_l.1 (fun j hj => getD_take_searchEnd hj) hlen
        (evenPart_mod_two _) (by omega) (by omega)
    dsimp only
    rw [hfp]
    revert hsecond
    cases c.roll (c.maskL <<< 1) c.maskL (data.take (c.searchEnd data)) (c.searchEnd data) rest.1
        (c.hashBelow data rest.1) with
    | inl result =>
      rintro ⟨hle, hlt, hzero, hleast⟩
      dsimp only
      refine Or.inl ⟨by omega, hlt, (hpasses₂ result (by omega)).mpr hzero,
        fun j hj hjr hpass => ?_⟩
      by_cases hjs : j < rest.1
      · exact hskip j hj hjs hpass
      · exact hleast j (by omega) hjr ((hpasses₂ j (by omega)).mp hpass)
    | inr last =>
      rintro ⟨-, -, hnone₂⟩
      refine Or.inr ⟨fun j hj hjs hpass => ?_, rfl⟩
      by_cases hjr : j < rest.1
      · exact hskip j hj hjr hpass
      · exact hnone₂ j (by omega) hjs ((hpasses₂ j (by omega)).mp hpass)

end Loops

/-! ## The cut -/

section Cut

variable {c : Chunker} {data : Bytes} {n result result' : Nat}

/-- There is one first index that passes. -/
theorem FirstPass.unique (h : c.FirstPass data n result) (h' : c.FirstPass data n result') :
    result = result' := by
  rcases h with ⟨hle, hlt, hpass, hleast⟩ | ⟨hnone, rfl⟩
  · rcases h' with ⟨hle', hlt', hpass', hleast'⟩ | ⟨hnone', rfl⟩
    · by_contra hne
      rcases Nat.lt_or_gt_of_ne hne with hbefore | hbehind
      · exact hleast' result hle hbefore hpass
      · exact hleast result' hle' hbehind hpass'
    · exact absurd hpass (hnone' result hle hlt)
  · rcases h' with ⟨hle', hlt', hpass', hleast'⟩ | ⟨hnone', rfl⟩
    · exact absurd hpass' (hnone result' hle' hlt')
    · rfl

theorem firstPass_self (hlt : n < c.searchEnd data) (hpass : c.Passes data n) : c.FirstPass data n n :=
  Or.inl ⟨le_refl n, hlt, hpass, fun j hj hjn => by omega⟩

/-- An index that does not pass is skipped. -/
theorem firstPass_of_succ (hpass : ¬ c.Passes data n) (h : c.FirstPass data (n + 1) result) :
    c.FirstPass data n result := by
  rcases h with ⟨hle, hlt, hresult, hleast⟩ | ⟨hnone, rfl⟩
  · refine Or.inl ⟨by omega, hlt, hresult, fun j hj hjr => ?_⟩
    obtain rfl | hgt : j = n ∨ n + 1 ≤ j := by omega
    · exact hpass
    · exact hleast j hgt hjr
  · refine Or.inr ⟨fun j hj hjs => ?_, rfl⟩
    obtain rfl | hgt : j = n ∨ n + 1 ≤ j := by omega
    · exact hpass
    · exact hnone j hgt hjs

theorem FirstPass.le (h : c.FirstPass data n result) (hn : n ≤ c.limit data) : n ≤ result := by
  rcases h with ⟨hle, -⟩ | ⟨-, rfl⟩
  · exact hle
  · exact hn

theorem hashBelow_minSize : c.hashBelow data c.minSize = 0 := by
  rw [hashBelow, Nat.sub_self]
  rfl

/-- The hash of the first byte. -/
theorem gearHash_minSize (hlen : c.minSize < data.length) :
    c.gearHash data c.minSize = c.gear (data.getD c.minSize 0) := by
  rw [gearHash, hashBelow_succ (le_refl _) hlen, hashBelow_minSize, UInt64.mul_zero, UInt64.zero_add]

/-- The center is behind an odd start, unless the normal size is the smallest one. -/
theorem minSize_lt_center_iff (hodd : c.minSize % 2 = 1) (hlt : c.minSize < c.searchEnd data) :
    c.minSize < c.center data ↔ c.normalSize ≠ c.minSize := by
  have hmin := c.min_le_normal
  have hlimit := evenPart_le (c.limit data)
  unfold searchEnd at hlt
  unfold center
  rw [evenPart] at hlt hlimit ⊢
  omega

theorem cut_of_length (hlen : c.minSize < data.length) :
    c.cut data =
      if c.minSize < c.searchEnd data ∧ c.minSize % 2 = 1 then
        if c.gear (data.getD c.minSize 0) &&& c.maskS = 0 then c.minSize + 1
        else c.rollPhases (data.take (c.searchEnd data)) (c.center data) (c.searchEnd data)
          (c.limit data)
          (c.minSize + 1) (c.hashBelow data (c.minSize + 1))
      else c.rollPhases (data.take (c.searchEnd data)) (c.center data) (c.searchEnd data)
        (c.limit data)
        c.minSize (c.hashBelow data c.minSize) := by
  have hmax : c.minSize ≤ c.maxSize := c.min_le_normal.trans c.normal_le_max
  have hstart : min c.minSize (min data.length c.maxSize) = c.minSize := by omega
  have hfirst := gearHash_minSize hlen
  rw [gearHash] at hfirst
  rw [cut, if_neg (by omega), hfirst, hashBelow_minSize]
  dsimp only
  rw [hstart]
  by_cases halign : c.minSize < c.searchEnd data ∧ c.minSize % 2 = 1
  · have hstop : c.minSize < evenPart (min data.length c.maxSize) ∧ c.minSize % 2 = 1 := halign
    have hbyte : (data.take (c.searchEnd data)).getD c.minSize 0 = data.getD c.minSize 0 :=
      getD_take_searchEnd halign.1
    rw [searchEnd, limit] at hbyte
    rw [if_pos halign, if_pos hstop, hbyte]
    rfl
  · have hstop : ¬ (c.minSize < evenPart (min data.length c.maxSize) ∧ c.minSize % 2 = 1) := halign
    rw [if_neg halign, if_neg hstop]
    rfl

/-- The start passes under the mask in force there, which is the large one only when the normal size
is the smallest one. -/
theorem passes_minSize_iff (hodd : c.minSize % 2 = 1) (hlt : c.minSize < c.searchEnd data) :
    c.Passes data c.minSize ↔
      (c.normalSize = c.minSize ∧ c.gear (data.getD c.minSize 0) &&& c.maskL = 0) ∨
        (c.normalSize ≠ c.minSize ∧ c.gear (data.getD c.minSize 0) &&& c.maskS = 0) := by
  have hcenter := minSize_lt_center_iff hodd hlt
  rw [Passes, gearHash_minSize (hlt.trans_le searchEnd_le_length), maskAt]
  by_cases hnormal : c.normalSize = c.minSize
  · rw [if_neg fun h => hcenter.mp h hnormal]
    simp [hnormal]
  · rw [if_pos (hcenter.mpr hnormal)]
    simp [hnormal]

/-- The second byte, when the center is not behind the start. -/
theorem passes_succ_iff (hodd : c.minSize % 2 = 1) (hlt : c.minSize + 1 < c.searchEnd data)
    (hnormal : c.normalSize = c.minSize) :
    c.Passes data (c.minSize + 1) ↔
      (2 * c.gear (data.getD c.minSize 0) + c.gear (data.getD (c.minSize + 1) 0)) &&& c.maskL = 0 := by
  have hlen : c.searchEnd data ≤ data.length := searchEnd_le_length
  have hcenter := (minSize_lt_center_iff hodd (by omega : c.minSize < c.searchEnd data)).not.mpr
    (fun h => h hnormal)
  have hfirst := gearHash_minSize (by omega : c.minSize < data.length)
  rw [gearHash] at hfirst
  rw [Passes, maskAt, if_neg (by omega), gearHash, hashBelow_succ (by omega) (by omega), hfirst]

/-- The alignment step returns the index behind the first byte. -/
theorem firstPass_aligned_iff (hodd : c.minSize % 2 = 1) (hlt : c.minSize < c.searchEnd data)
    (hsmall : c.gear (data.getD c.minSize 0) &&& c.maskS = 0) :
    c.FirstPass data c.minSize (c.minSize + 1) ↔ c.AlignmentAgrees data := by
  have hend : c.searchEnd data % 2 = 0 := evenPart_mod_two _
  have hlimit : c.searchEnd data ≤ c.limit data := evenPart_le _
  have hpass := passes_minSize_iff hodd hlt
  constructor
  · intro h
    -- the start does not pass, so the mask there is the large one
    have hskip : ¬ c.Passes data c.minSize := by
      intro hp
      have heq := h.unique (firstPass_self hlt hp)
      omega
    have hnormal : c.normalSize = c.minSize := by
      by_contra hne
      exact hskip (hpass.mpr (Or.inr ⟨hne, hsmall⟩))
    have hlarge : c.gear (data.getD c.minSize 0) &&& c.maskL ≠ 0 :=
      fun hzero => hskip (hpass.mpr (Or.inl ⟨hnormal, hzero⟩))
    refine Or.inr ⟨hsmall, hnormal, hlarge, ?_⟩
    rcases h with ⟨-, hnext, hp, -⟩ | ⟨-, hmax⟩
    · exact Or.inr ⟨hnext, (passes_succ_iff hodd hnext hnormal).mp hp⟩
    · exact Or.inl hmax.symm
  · rintro (⟨hne, -⟩ | ⟨-, hnormal, hlarge, hnext⟩)
    · exact absurd hsmall hne
    · have hskip : ¬ c.Passes data c.minSize := by
        rw [hpass]
        rintro (⟨-, hzero⟩ | ⟨hne, -⟩)
        · exact hlarge hzero
        · exact hne hnormal
      refine firstPass_of_succ hskip ?_
      rcases hnext with hmax | ⟨hnext, hzero⟩
      · exact Or.inr ⟨fun j hj hjs => by omega, hmax.symm⟩
      · exact firstPass_self hnext ((passes_succ_iff hodd hnext hnormal).mpr hzero)

/-- The alignment step goes on behind the first byte. -/
theorem firstPass_continued_iff (hodd : c.minSize % 2 = 1) (hlt : c.minSize < c.searchEnd data)
    (hsmall : c.gear (data.getD c.minSize 0) &&& c.maskS ≠ 0)
    (h : c.FirstPass data (c.minSize + 1) result) :
    c.FirstPass data c.minSize result ↔ c.AlignmentAgrees data := by
  have hlimit : c.searchEnd data ≤ c.limit data := evenPart_le _
  have hpass := passes_minSize_iff hodd hlt
  constructor
  · intro hresult
    refine Or.inl ⟨hsmall, fun hnormal hzero => ?_⟩
    have heq := hresult.unique (firstPass_self hlt (hpass.mpr (Or.inl ⟨hnormal, hzero⟩)))
    have hle := h.le (by omega)
    omega
  · rintro (⟨-, hlarge⟩ | ⟨hzero, -⟩)
    · refine firstPass_of_succ ?_ h
      rw [hpass]
      rintro (⟨hnormal, hzero⟩ | ⟨-, hzero⟩)
      · exact hlarge hnormal hzero
      · exact hsmall hzero
    · exact absurd hzero hsmall

/-- **When the rolling cut is the plain one.** The start is even, or there is nothing to search, or
the alignment does no harm. -/
theorem firstPass_cut_iff (hdoubles : c.Doubles) (hlen : c.minSize < data.length) :
    c.IsGearCut data (c.cut data) ↔
      c.minSize % 2 = 0 ∨ c.searchEnd data ≤ c.minSize ∨ c.AlignmentAgrees data := by
  rw [IsGearCut, cut_of_length hlen]
  by_cases halign : c.minSize < c.searchEnd data ∧ c.minSize % 2 = 1
  · obtain ⟨hlt, hodd⟩ := halign
    have hcond : (c.minSize % 2 = 0 ∨ c.searchEnd data ≤ c.minSize ∨ c.AlignmentAgrees data) ↔
        c.AlignmentAgrees data := by
      rw [or_iff_right (by omega), or_iff_right (by omega)]
    rw [if_pos ⟨hlt, hodd⟩, hcond]
    split
    · rename_i hsmall
      exact firstPass_aligned_iff hodd hlt hsmall
    · rename_i hsmall
      exact firstPass_continued_iff hodd hlt hsmall (rollPhases_spec hdoubles (by omega) (by omega))
  · rw [if_neg halign]
    refine iff_of_true (rollPhases_spec hdoubles (le_refl _) (by omega)) ?_
    by_cases heven : c.minSize % 2 = 0
    · exact Or.inl heven
    · exact Or.inr (Or.inl (by omega))

end Cut

/-! ## The chunkers of the crate -/

section New

variable {c : Chunker} {data : Bytes} {minSize normalSize maxSize : Nat}
  {normalization : Normalization}

/-- The chunkers that `Chunker::new` returns shift their tables and masks. -/
theorem doubles_of_new (h : Chunker.new Mapache.gear Mapache.gearLs minSize normalSize maxSize
    normalization = some c) :
    c.Doubles := by
  unfold Chunker.new at h
  split at h
  · obtain ⟨maskS, hmaskS, hrest⟩ := Option.bind_eq_some_iff.mp h
    obtain ⟨maskL, hmaskL, rfl⟩ := Option.map_eq_some_iff.mp hrest
    exact ⟨gearLs_eq, ⟨masks_lt maskS (List.mem_of_getElem? hmaskS), rfl⟩,
      masks_lt maskL (List.mem_of_getElem? hmaskL), rfl⟩
  · cases h

/-- **The two-byte rolling cut and the plain Gear cut**, for every chunker that `Chunker::new`
admits and every byte string longer than the smallest chunk. -/
theorem cut_isGearCut_iff
    (hnew : Chunker.new Mapache.gear Mapache.gearLs minSize normalSize maxSize normalization = some c)
    (hlen : c.minSize < data.length) :
    c.IsGearCut data (c.cut data) ↔
      c.minSize % 2 = 0 ∨ c.searchEnd data ≤ c.minSize ∨ c.AlignmentAgrees data :=
  firstPass_cut_iff (doubles_of_new hnew) hlen

/-- An even start. -/
theorem cut_isGearCut_even : ∃ c, Chunker.new Mapache.gear Mapache.gearLs 64 128 256 .none = some c ∧
    c.minSize < (List.replicate 66 (0 : UInt8)).length ∧
    c.IsGearCut (List.replicate 66 0) (c.cut (List.replicate 66 0)) := by
  obtain ⟨c, hnew, hmin⟩ : ∃ c, Chunker.new Mapache.gear Mapache.gearLs 64 128 256 .none = some c ∧
      c.minSize = 64 := ⟨_, rfl, rfl⟩
  have hlen : c.minSize < (List.replicate 66 (0 : UInt8)).length := by
    rw [hmin]
    decide
  refine ⟨c, hnew, hlen, (cut_isGearCut_iff hnew hlen).mpr (Or.inl ?_)⟩
  rw [hmin]

/-- A byte string whose byte at the odd start 65 passes. -/
def oddData : Bytes := List.replicate 65 0 ++ [128, 0]

/-- **The alignment of an odd start cuts one byte late.** -/
theorem odd_start_cuts_late : ∃ c, Chunker.new Mapache.gear Mapache.gearLs 65 128 256 .none = some c ∧
    c.minSize < oddData.length ∧ c.cut oddData = 66 ∧ c.IsGearCut oddData 65 ∧
    ¬ c.IsGearCut oddData (c.cut oddData) := by
  obtain ⟨c, hnew, hmin, hnormal, hmax, hmask, hgear⟩ :
      ∃ c, Chunker.new Mapache.gear Mapache.gearLs 65 128 256 .none = some c ∧ c.minSize = 65 ∧
        c.normalSize = 128 ∧ c.maxSize = 256 ∧ c.maskS = 0x484208006000 ∧ c.gear = Mapache.gear :=
    ⟨_, rfl, rfl, rfl, rfl, rfl, rfl⟩
  have hlen : c.minSize < oddData.length := by
    rw [hmin]
    decide
  have hend : c.searchEnd oddData = 66 := by
    rw [searchEnd, limit, hmax]
    decide
  have hlt : c.minSize < c.searchEnd oddData := by
    rw [hmin, hend]
    decide
  have hodd : c.minSize % 2 = 1 := by
    rw [hmin]
  have hzero : c.gear (oddData.getD c.minSize 0) &&& c.maskS = 0 := by
    rw [hgear, hmin, hmask]
    decide +kernel
  have hcut : c.cut oddData = 66 := by
    rw [cut_of_length hlen, if_pos ⟨hlt, hodd⟩, if_pos hzero, hmin]
  have hplain : c.IsGearCut oddData c.minSize := by
    refine firstPass_self hlt ((passes_minSize_iff hodd hlt).mpr (Or.inr ⟨?_, hzero⟩))
    rw [hnormal, hmin]
    decide
  rw [hmin] at hplain
  refine ⟨c, hnew, hlen, hcut, hplain, fun h => ?_⟩
  have heq := h.unique hplain
  rw [hcut] at heq
  cases heq

end New

end Chunker

end Mapache
