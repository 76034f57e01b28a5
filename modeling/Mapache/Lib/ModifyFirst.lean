import Mathlib.Data.List.Basic

/-!
# Updating the first element that meets a test

`modifyFirst p f l` applies `f` to the first element of `l` that meets `p`, as an
`iter_mut().find()` followed by an assignment does.
-/

set_option autoImplicit false

namespace Mapache.Lib

universe u v

variable {α : Type u} {β : Type v}

/-- Apply `f` to the first element that meets `p`. -/
def modifyFirst (p : α → Bool) (f : α → α) : List α → List α
  | [] => []
  | x :: xs => if p x then f x :: xs else x :: modifyFirst p f xs

variable {p : α → Bool} {f : α → α}

theorem mem_modifyFirst_sound {l : List α} {y : α} (h : y ∈ modifyFirst p f l) :
    y ∈ l ∨ ∃ x ∈ l, p x = true ∧ y = f x := by
  induction l with
  | nil => cases h
  | cons x xs ih =>
    simp only [modifyFirst] at h
    split at h
    · rcases List.mem_cons.mp h with rfl | htail
      · exact Or.inr ⟨x, List.mem_cons_self, ‹_›, rfl⟩
      · exact Or.inl (List.mem_cons_of_mem _ htail)
    · rcases List.mem_cons.mp h with rfl | htail
      · exact Or.inl List.mem_cons_self
      · rcases ih htail with hold | ⟨x', hx', hp, rfl⟩
        · exact Or.inl (List.mem_cons_of_mem _ hold)
        · exact Or.inr ⟨x', List.mem_cons_of_mem _ hx', hp, rfl⟩

theorem mem_modifyFirst_complete {l : List α} {x : α} (h : x ∈ l) :
    x ∈ modifyFirst p f l ∨ (p x = true ∧ f x ∈ modifyFirst p f l) := by
  induction l with
  | nil => cases h
  | cons y ys ih =>
    simp only [modifyFirst]
    split
    · rcases List.mem_cons.mp h with rfl | htail
      · exact Or.inr ⟨‹_›, List.mem_cons_self⟩
      · exact Or.inl (List.mem_cons_of_mem _ htail)
    · rcases List.mem_cons.mp h with rfl | htail
      · exact Or.inl List.mem_cons_self
      · rcases ih htail with hmem | ⟨hp, hmem⟩
        · exact Or.inl (List.mem_cons_of_mem _ hmem)
        · exact Or.inr ⟨hp, List.mem_cons_of_mem _ hmem⟩

/-- The element that is updated is the first match. -/
theorem mem_modifyFirst_find {l : List α} {x : α} (h : l.find? p = some x) :
    f x ∈ modifyFirst p f l := by
  induction l with
  | nil => cases h
  | cons y ys ih =>
    simp only [modifyFirst]
    by_cases hp : p y = true
    · rw [List.find?_cons_of_pos hp] at h
      cases h
      simp [hp]
    · rw [List.find?_cons_of_neg hp] at h
      simp [hp, ih h]

/-- A projection that the update keeps is kept on the whole list. -/
theorem map_modifyFirst {g : α → β} (hg : ∀ x, g (f x) = g x) (l : List α) :
    (modifyFirst p f l).map g = l.map g := by
  induction l with
  | nil => rfl
  | cons x xs ih =>
    simp only [modifyFirst]
    split
    · simp [hg]
    · simp [ih]

end Mapache.Lib
