import Mathlib.Data.List.Infix

/-!
# Strict prefixes

A path of a tree is a list, and one node lies below another when its path extends the other path.
The lemmas here go from a path to the child on the way to a path below it, and back to the parent.
-/

set_option autoImplicit false

namespace Mapache.Lib

universe u

variable {α : Type u} {d p q : List α} {x : α}

/-- One list properly extends another one. -/
def StrictPrefix (d p : List α) : Prop := d <+: p ∧ d ≠ p

instance [DecidableEq α] (d p : List α) :
    Decidable (StrictPrefix d p) := inferInstanceAs (Decidable (_ ∧ _))

namespace StrictPrefix

theorem length_lt (h : StrictPrefix d p) : d.length < p.length :=
  lt_of_le_of_ne h.1.length_le fun heq => h.2 (h.1.eq_of_length heq)

theorem of_length_lt (h : d <+: p) (hlt : d.length < p.length) : StrictPrefix d p :=
  ⟨h, fun heq => by rw [heq] at hlt; exact lt_irrefl _ hlt⟩

theorem trans_le (h : StrictPrefix d p) (hpq : p <+: q) : StrictPrefix d q :=
  of_length_lt (h.1.trans hpq) (lt_of_lt_of_le h.length_lt hpq.length_le)

theorem prefix_trans (h : d <+: p) (hpq : StrictPrefix p q) : StrictPrefix d q :=
  of_length_lt (h.trans hpq.1) (lt_of_le_of_lt h.length_le hpq.length_lt)

theorem ne_nil (h : StrictPrefix d p) : p ≠ [] := by
  rintro rfl
  exact h.2 (List.prefix_nil.mp h.1)

theorem not_le_self (h : StrictPrefix d p) : ¬ p <+: d := fun hp =>
  absurd hp.length_le (not_le.mpr h.length_lt)

/-- The next list on the way from a prefix. -/
theorem exists_next (h : StrictPrefix d p) : ∃ x, d ++ [x] <+: p := by
  obtain ⟨⟨t, rfl⟩, hne⟩ := h
  cases t with
  | nil => exact absurd (List.append_nil d).symm hne
  | cons x t => exact ⟨x, t, by rw [List.append_assoc, List.singleton_append]⟩

/-- A proper prefix is a prefix of the list without its last element. -/
theorem prefix_dropLast (h : StrictPrefix d p) : d <+: p.dropLast :=
  List.prefix_of_prefix_length_le h.1 (List.dropLast_prefix p) (by
    rw [List.length_dropLast]
    exact Nat.le_sub_one_of_lt h.length_lt)

theorem dropLast (h : p ≠ []) : StrictPrefix p.dropLast p := by
  refine of_length_lt (List.dropLast_prefix p) ?_
  rw [List.length_dropLast]
  exact Nat.sub_lt (List.length_pos_iff.mpr h) Nat.one_pos

theorem append_singleton (d : List α) (x : α) : StrictPrefix d (d ++ [x]) :=
  of_length_lt (List.prefix_append d [x]) (by simp)

end StrictPrefix

theorem prefix_append_singleton_iff : p <+: d ++ [x] ↔ p <+: d ∨ p = d ++ [x] := by
  rw [List.prefix_concat_iff, or_comm]

/-- A list that is not empty is its parent with one more element. -/
theorem exists_eq_append_singleton (h : p ≠ []) : ∃ x, p = p.dropLast ++ [x] :=
  ⟨p.getLast h, (List.dropLast_append_getLast h).symm⟩

/-- The next list on the way from a prefix is unique. -/
theorem next_unique {y : α} (h : d ++ [x] <+: p) (h' : d ++ [y] <+: p) : x = y := by
  have heq : d ++ [x] = d ++ [y] :=
    (List.prefix_of_prefix_length_le h h' (by simp)).eq_of_length (by simp)
  simpa using heq

/-- Of two prefixes of one list one is a prefix of the other. -/
theorem prefix_or_strictPrefix (h : d <+: q) (h' : p <+: q) : d <+: p ∨ StrictPrefix p d := by
  rcases le_or_gt d.length p.length with hle | hlt
  · exact Or.inl (List.prefix_of_prefix_length_le h h' hle)
  · exact Or.inr (.of_length_lt (List.prefix_of_prefix_length_le h' h hlt.le) hlt)

end Mapache.Lib
