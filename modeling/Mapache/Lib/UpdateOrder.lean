import Mathlib.Logic.Function.Basic
import Mathlib.Data.List.Basic

/-!
# Updates that may get into each other's way

A list of updates is carried out one after the other. Each changes the value of one key, if the
values of other keys let it. When no update comes after one that it depends on, an earlier update
never stands in the way of a later one: what could be carried out at the start is carried out
(`foldl_tryUpdate`).
-/

set_option autoImplicit false

namespace Mapache.Lib

universe u v w

variable {κ : Type u} {α : Type v} {β : Type w} [DecidableEq κ]

section Updates

variable (key : β → κ) (act : β → α → α) (allowed : (κ → α) → β → Bool)

/-- The update of one key. -/
def update (f : κ → α) (u : β) : κ → α := Function.update f (key u) (act u (f (key u)))

/-- The update, if the values let it. -/
def tryUpdate (f : κ → α) (u : β) : κ → α := if allowed f u then update key act f u else f

/-- The value of a key after all updates of it. -/
theorem foldl_update (us : List β) (f : κ → α) (k : κ) :
    us.foldl (update key act) f k =
      (us.filter fun u => key u = k).foldl (fun a u => act u a) (f k) := by
  induction us generalizing f with
  | nil => rfl
  | cons u us ih =>
    rw [List.foldl_cons, ih]
    by_cases hk : key u = k
    · subst hk
      simp [update]
    · have hne : k ≠ key u := fun h => hk h.symm
      simp [update, hk, hne]

variable {key act allowed}

/-- **No update is lost** that the values let at the start, if none comes after one that it depends
on. -/
theorem foldl_tryUpdate {depends : β → κ → Prop}
    (hlocal : ∀ f g u, (∀ k, depends u k → f k = g k) → allowed f u = allowed g u)
    {us : List β} {f : κ → α} (horder : us.Pairwise fun u u' => ¬ depends u' (key u))
    (hstart : ∀ u ∈ us, allowed f u = true) :
    us.foldl (tryUpdate key act allowed) f = us.foldl (update key act) f := by
  induction us generalizing f with
  | nil => rfl
  | cons u us ih =>
    obtain ⟨hfirst, hrest⟩ := List.pairwise_cons.mp horder
    have hu : tryUpdate key act allowed f u = update key act f u :=
      if_pos (hstart u List.mem_cons_self)
    rw [List.foldl_cons, List.foldl_cons, hu]
    refine ih hrest fun u' hu' => ?_
    -- what the first update changed does not matter to the others
    rw [← hstart u' (List.mem_cons_of_mem _ hu')]
    refine hlocal _ _ _ fun k hk => ?_
    have hne : k ≠ key u := fun h => hfirst u' hu' (h ▸ hk)
    simp [update, hne]

end Updates

end Mapache.Lib
