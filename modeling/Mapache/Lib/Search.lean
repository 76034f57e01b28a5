import Mathlib.Data.Set.Insert
import Mathlib.Logic.Relation

/-!
# Searching a graph with a set of visited nodes

A search takes a node from its stack, skips it if it was visited before, and otherwise visits it and
puts its children on the stack. `Around child V s t` says that `t` can be reached from `s` on a path
without a node of `V`: these are the nodes that a search from `s` visits when it starts with the
visited set `V`. `forall_around_visit` is the step of such a search. When the visited set is closed
under `child`, a node that can be reached but is not visited lies in the set
(`around_or_mem_of_closed`).
-/

set_option autoImplicit false

namespace Mapache.Lib

universe u

variable {α : Type u} {child : α → α → Prop}

/-- There is a path from `s` to `t` on which no node, not even an end, is in `V`. -/
inductive Around (child : α → α → Prop) (V : Set α) (s : α) : α → Prop where
  | start : s ∉ V → Around child V s s
  | next {t t' : α} : Around child V s t → child t t' → t' ∉ V → Around child V s t'

namespace Around

variable {V : Set α} {s t t' u : α}

theorem start_notMem (h : Around child V s t) : s ∉ V := by
  induction h with
  | start h => exact h
  | next _ _ _ ih => exact ih

/-- A path around `V` is a path. -/
theorem reachable (h : Around child V s t) : Relation.ReflTransGen child s t := by
  induction h with
  | start _ => exact .refl
  | next _ hchild _ ih => exact .tail ih hchild

/-- A path can be started one node earlier. -/
theorem head (hs : s ∉ V) (hchild : child s t) (h : Around child V t u) : Around child V s u := by
  induction h with
  | start ht => exact .next (.start hs) hchild ht
  | next _ hc hu ih => exact .next ih hc hu

/-- A path around a set is a path around each of its parts. -/
theorem mono {W : Set α} (hVW : V ⊆ W) (h : Around child W s t) : Around child V s t := by
  induction h with
  | start hs => exact .start fun hmem => hs (hVW hmem)
  | next _ hchild ht ih => exact .next ih hchild fun hmem => ht (hVW hmem)

/-- A path around `V` that meets `t` can be cut after the last time it does: what remains starts at
a child of `t` and keeps around `t` as well. -/
theorem split (t : α) (h : Around child V s u) :
    u = t ∨ Around child (insert t V) s u ∨ ∃ t', child t t' ∧ Around child (insert t V) t' u := by
  induction h with
  | start hs =>
    by_cases heq : s = t
    · exact Or.inl heq
    · exact Or.inr (Or.inl (.start (by simp [heq, hs])))
  | @next v w _ hchild hw ih =>
    by_cases heq : w = t
    · exact Or.inl heq
    · have hw' : w ∉ insert t V := by simp [heq, hw]
      rcases ih with rfl | hpath | ⟨t', ht', hpath⟩
      · exact Or.inr (Or.inr ⟨w, hchild, .start hw'⟩)
      · exact Or.inr (Or.inl (.next hpath hchild hw'))
      · exact Or.inr (Or.inr ⟨t', ht', .next hpath hchild hw'⟩)

end Around

/-- A search that skips a node of the stack has the same nodes to visit. -/
theorem forall_around_skip {V : Set α} {P : α → Prop} {t : α} {stack : List α} (ht : t ∈ V) :
    (∀ s ∈ t :: stack, ∀ u, Around child V s u → P u) ↔
      ∀ s ∈ stack, ∀ u, Around child V s u → P u := by
  rw [List.forall_mem_cons]
  exact and_iff_right fun u hu => absurd ht hu.start_notMem

/-- **The step of a search.** What holds of all nodes that the search will visit holds of the node
that it visits now and of those that it will visit from the new stack. -/
theorem forall_around_visit {V : Set α} {P : α → Prop} {t : α} {stack stack' : List α} (ht : t ∉ V)
    (hstack : ∀ s, s ∈ stack' ↔ child t s ∨ s ∈ stack) :
    (∀ s ∈ t :: stack, ∀ u, Around child V s u → P u) ↔
      P t ∧ ∀ s ∈ stack', ∀ u, Around child (insert t V) s u → P u := by
  have hsub : V ⊆ insert t V := Set.subset_insert _ _
  constructor
  · intro h
    refine ⟨h t List.mem_cons_self t (.start ht), fun s hs u hu => ?_⟩
    rcases (hstack s).mp hs with hchild | hmem
    · exact h t List.mem_cons_self u (.head ht hchild (hu.mono hsub))
    · exact h s (List.mem_cons_of_mem _ hmem) u (hu.mono hsub)
  · rintro ⟨hPt, h⟩ s hs u hu
    rcases hu.split t with rfl | hpath | ⟨t', ht', hpath⟩
    · exact hPt
    · rcases List.mem_cons.mp hs with rfl | hmem
      · exact absurd (Set.mem_insert _ _) hpath.start_notMem
      · exact h s ((hstack s).mpr (Or.inr hmem)) u hpath
    · exact h t' ((hstack t').mpr (Or.inl ht')) u hpath

/-- A node that can be reached is reached around a closed set, or it is in the set. -/
theorem around_or_mem_of_closed {V : Set α} {s t : α}
    (hclosed : ∀ v ∈ V, ∀ w, child v w → w ∈ V) (h : Relation.ReflTransGen child s t) :
    Around child V s t ∨ t ∈ V := by
  induction h with
  | refl =>
    by_cases hs : s ∈ V
    · exact Or.inr hs
    · exact Or.inl (.start hs)
  | @tail v w _ hchild ih =>
    by_cases hw : w ∈ V
    · exact Or.inr hw
    · rcases ih with hpath | hv
      · exact Or.inl (.next hpath hchild hw)
      · exact absurd (hclosed v hv w hchild) hw

end Mapache.Lib
