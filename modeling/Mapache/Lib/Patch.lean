import Mathlib.Data.List.Basic

/-!
# Writing a list in pieces

`writeAt` overwrites a part of a list and lets it grow when the part lies behind its end. When
several pieces of one list are written, in any order and over each other, none of them disturbs what
another one has written (`HoldsAt.writeAt`), and when they cover the list, the result is the list
(`eq_of_covered`).
-/

set_option autoImplicit false

namespace Mapache.Lib

universe u

variable {α : Type u}

/-- Write `data` at `offset`. A gap between the end of the list and the offset is filled. -/
def writeAt (fill : α) (content : List α) (offset : Nat) (data : List α) : List α :=
  if data = [] then content
  else
    (content ++ List.replicate (offset - content.length) fill).take offset ++ data ++
      content.drop (offset + data.length)

/-- The list holds `data` at `offset`. -/
def HoldsAt (content : List α) (offset : Nat) (data : List α) : Prop :=
  ∀ i, i < data.length → content[offset + i]? = data[i]?

section WriteAt

variable {fill : α} {content target data data' : List α} {offset offset' p : Nat}

@[simp] theorem writeAt_nil : writeAt fill content offset [] = content := if_pos rfl

theorem length_writeAt (hne : data ≠ []) :
    (writeAt fill content offset data).length = max content.length (offset + data.length) := by
  rw [writeAt, if_neg hne]
  simp only [List.length_append, List.length_take, List.length_replicate, List.length_drop]
  omega

/-- What is there after a write, position by position. -/
theorem getElem?_writeAt (hne : data ≠ []) (hp : p < content.length ∨ offset ≤ p) :
    (writeAt fill content offset data)[p]? =
      if offset ≤ p ∧ p < offset + data.length then data[p - offset]? else content[p]? := by
  have htake : ((content ++ List.replicate (offset - content.length) fill).take offset).length =
      offset := by
    simp only [List.length_take, List.length_append, List.length_replicate]
    omega
  rw [writeAt, if_neg hne]
  by_cases hlt : p < offset
  · -- before the piece
    have hcontent : p < content.length := hp.resolve_right (by omega)
    rw [if_neg (by omega), List.append_assoc, List.getElem?_append_left (by omega),
      List.getElem?_take_of_lt hlt, List.getElem?_append_left hcontent]
  · by_cases hin : p < offset + data.length
    · rw [if_pos ⟨by omega, hin⟩, List.getElem?_append_left (by rw [List.length_append]; omega),
        List.getElem?_append_right (by omega), htake]
    · -- behind the piece
      rw [if_neg (by omega), List.getElem?_append_right (by rw [List.length_append]; omega),
        List.length_append, htake, List.getElem?_drop]
      congr 1
      omega

/-- A write at the end of the list. -/
theorem writeAt_end (content data : List α) :
    writeAt fill content content.length data = content ++ data := by
  by_cases hnil : data = []
  · rw [hnil, writeAt_nil, List.append_nil]
  · rw [writeAt, if_neg hnil, Nat.sub_self, List.replicate_zero, List.append_nil,
      List.take_length, List.drop_eq_nil_of_le (by omega), List.append_nil]

/-- A piece that was written is there. -/
theorem holdsAt_writeAt : HoldsAt (writeAt fill content offset data) offset data := by
  intro i hi
  have hne : data ≠ [] := by
    rintro rfl
    exact absurd hi (Nat.not_lt_zero i)
  rw [getElem?_writeAt hne (Or.inr (by omega)), if_pos ⟨by omega, by omega⟩]
  congr 1
  omega

/-- Writing a piece of the target keeps every position that agrees with it. -/
theorem getElem?_writeAt_of_agrees (hpiece : HoldsAt target offset data) (hp : p < target.length)
    (h : content[p]? = target[p]?) : (writeAt fill content offset data)[p]? = target[p]? := by
  by_cases hne : data = []
  · rw [hne, writeAt_nil]
    exact h
  · have hcontent : p < content.length := by
      rw [List.getElem?_eq_getElem hp] at h
      exact (List.getElem?_eq_some_iff.mp h).1
    rw [getElem?_writeAt hne (Or.inl hcontent)]
    split
    · rename_i hin
      have hdata := hpiece (p - offset) (by omega)
      rw [← hdata]
      congr 1
      omega
    · exact h

theorem HoldsAt.le_length (h : HoldsAt content offset data) (hne : data ≠ []) :
    offset + data.length ≤ content.length := by
  have hpos : 0 < data.length := List.length_pos_iff.mpr hne
  have hlast := h (data.length - 1) (by omega)
  rw [List.getElem?_eq_getElem (show data.length - 1 < data.length by omega)] at hlast
  have hlt := (List.getElem?_eq_some_iff.mp hlast).1
  omega

/-- **The pieces of one list do not disturb each other.** -/
theorem HoldsAt.writeAt (h : HoldsAt content offset' data') (htarget : HoldsAt target offset' data')
    (hpiece : HoldsAt target offset data) :
    HoldsAt (Lib.writeAt fill content offset data) offset' data' := by
  intro i hi
  have hlt : offset' + i < target.length := by
    have hsome := htarget i hi
    rw [List.getElem?_eq_getElem hi] at hsome
    exact (List.getElem?_eq_some_iff.mp hsome).1
  have hagrees : content[offset' + i]? = target[offset' + i]? := (h i hi).trans (htarget i hi).symm
  rw [getElem?_writeAt_of_agrees hpiece hlt hagrees]
  exact htarget i hi

/-- Writing pieces of the target does not make the list longer than that. -/
theorem length_writeAt_le (hpiece : HoldsAt target offset data) (h : content.length ≤ target.length) :
    (writeAt fill content offset data).length ≤ target.length := by
  by_cases hne : data = []
  · rw [hne, writeAt_nil]
    exact h
  · have hle := hpiece.le_length hne
    rw [length_writeAt hne]
    omega

/-- **A list that holds pieces that cover the target is the target.** -/
theorem eq_of_covered (hlen : content.length ≤ target.length)
    (h : ∀ p, p < target.length → content[p]? = target[p]?) : content = target := by
  refine List.ext_getElem? fun p => ?_
  by_cases hp : p < target.length
  · exact h p hp
  · rw [List.getElem?_eq_none (by omega), List.getElem?_eq_none (by omega)]

end WriteAt

/-! ## A list and its parts -/

section Parts

/-- The parts with their offsets. -/
def withOffsets : Nat → List (List α) → List (List α × Nat)
  | _, [] => []
  | offset, part :: parts => (part, offset) :: withOffsets (offset + part.length) parts

theorem holdsAt_withOffsets (pre : List α) (parts : List (List α)) {w : List α × Nat}
    (hw : w ∈ withOffsets pre.length parts) :
    HoldsAt (pre ++ parts.flatten) w.2 w.1 := by
  induction parts generalizing pre with
  | nil => cases hw
  | cons part parts ih =>
    rcases List.mem_cons.mp hw with rfl | hrest
    · intro i hi
      rw [List.getElem?_append_right (by omega), List.flatten_cons, Nat.add_sub_cancel_left,
        List.getElem?_append_left hi]
    · have hpre : pre ++ (part :: parts).flatten = (pre ++ part) ++ parts.flatten := by
        rw [List.flatten_cons, List.append_assoc]
      rw [hpre]
      refine ih (pre ++ part) ?_
      rw [List.length_append]
      exact hrest

/-- Every position of the list lies in one of the parts. -/
theorem exists_withOffsets (offset : Nat) (parts : List (List α)) {p : Nat} (hlo : offset ≤ p)
    (hhi : p < offset + parts.flatten.length) :
    ∃ w ∈ withOffsets offset parts, w.2 ≤ p ∧ p < w.2 + w.1.length := by
  induction parts generalizing offset with
  | nil =>
    simp only [List.flatten_nil, List.length_nil] at hhi
    omega
  | cons part parts ih =>
    rw [List.flatten_cons, List.length_append] at hhi
    by_cases hin : p < offset + part.length
    · exact ⟨(part, offset), List.mem_cons_self, hlo, hin⟩
    · obtain ⟨w, hw, hrange⟩ := ih (offset + part.length) (by omega) (by omega)
      exact ⟨w, List.mem_cons_of_mem _ hw, hrange⟩

end Parts

end Mapache.Lib
