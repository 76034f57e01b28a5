import Mathlib.Data.List.Induction
import Mathlib.Order.Nat

/-!
# Tries as labelled edges

A trie whose nodes are numbered, given by the child of a node under a label. The numbers of the
children are larger than that of the node, and every node has one parent at most (`WF`), so that a
node is reached from the root by one sequence of labels only (`WF.walk_inj`). A new node at the end
of a new edge leaves what is reached otherwise as it is (`walk_addEdge_iff`).
-/

set_option autoImplicit false

namespace Mapache.Lib.Trie

variable {κ : Type}

/-- The node that the labels lead to. -/
def walk (child : Nat → κ → Option Nat) : Nat → List κ → Option Nat
  | i, [] => some i
  | i, k :: ks => (child i k).bind fun j => walk child j ks

/-- The edges of a trie with nodes below `size`. -/
structure WF (child : Nat → κ → Option Nat) (size : Nat) : Prop where
  forward : ∀ {i k j}, child i k = some j → i < j ∧ j < size
  unique : ∀ {i k j i' k'}, child i k = some j → child i' k' = some j → i = i' ∧ k = k'

section Walk

variable {child : Nat → κ → Option Nat} {size i j : Nat} {k : κ} {ks ks' : List κ}

@[simp] theorem walk_nil : walk child i [] = some i := rfl

theorem walk_cons : walk child i (k :: ks) = (child i k).bind fun j => walk child j ks := rfl

theorem walk_append : walk child i (ks ++ ks') = (walk child i ks).bind fun j => walk child j ks' := by
  induction ks generalizing i with
  | nil => rfl
  | cons k ks ih =>
    rw [List.cons_append, walk_cons, walk_cons, Option.bind_assoc]
    exact congrArg _ (funext fun j => ih)

theorem walk_concat : walk child i (ks ++ [k]) = (walk child i ks).bind fun j => child j k := by
  rw [walk_append]
  refine congrArg _ (funext fun j => ?_)
  rw [walk_cons]
  cases child j k <;> rfl

/-- The way down increases the numbers. -/
theorem WF.le_of_walk (h : WF child size) (hwalk : walk child i ks = some j) : i ≤ j := by
  induction ks generalizing i with
  | nil =>
    cases hwalk
    exact le_refl _
  | cons k ks ih =>
    obtain ⟨m, hm, hrest⟩ := Option.bind_eq_some_iff.mp hwalk
    exact (h.forward hm).1.le.trans (ih hrest)

theorem WF.walk_lt (h : WF child size) (hi : i < size) (hwalk : walk child i ks = some j) :
    j < size := by
  induction ks generalizing i with
  | nil =>
    cases hwalk
    exact hi
  | cons k ks ih =>
    obtain ⟨m, hm, hrest⟩ := Option.bind_eq_some_iff.mp hwalk
    exact ih (h.forward hm).2 hrest

/-- **A node is reached by one sequence of labels only.** The induction goes from the end, where the
parent is the same one. -/
theorem WF.walk_inj (h : WF child size) (hwalk : walk child i ks = some j)
    (hwalk' : walk child i ks' = some j) : ks = ks' := by
  induction ks using List.reverseRecOn generalizing ks' j with
  | nil =>
    cases hwalk
    rcases List.eq_nil_or_concat ks' with rfl | ⟨ks', k, rfl⟩
    · rfl
    · -- an edge leads to a larger index, so no walk comes back to its start
      rw [List.concat_eq_append, walk_concat] at hwalk'
      obtain ⟨m, hm, hlast⟩ := Option.bind_eq_some_iff.mp hwalk'
      have hle := h.le_of_walk hm
      have hlt := (h.forward hlast).1
      omega
  | append_singleton ks k ih =>
    rw [walk_concat] at hwalk
    obtain ⟨m, hm, hlast⟩ := Option.bind_eq_some_iff.mp hwalk
    rcases List.eq_nil_or_concat ks' with rfl | ⟨ks', k', rfl⟩
    · cases hwalk'
      have hle := h.le_of_walk hm
      have hlt := (h.forward hlast).1
      omega
    · rw [List.concat_eq_append, walk_concat] at hwalk'
      obtain ⟨m', hm', hlast'⟩ := Option.bind_eq_some_iff.mp hwalk'
      obtain ⟨rfl, rfl⟩ := h.unique hlast hlast'
      rw [List.concat_eq_append, ih hm hm']

end Walk

/-! ## A new edge -/

/-- The edges with a new one, to the node `size`. -/
def addEdge [DecidableEq κ] (child : Nat → κ → Option Nat) (size cur : Nat) (key : κ) (i : Nat)
    (k : κ) :
    Option Nat :=
  if i = cur ∧ k = key then some size else child i k

section AddEdge

variable [DecidableEq κ] {child : Nat → κ → Option Nat} {size cur i j : Nat} {key k : κ} {ks : List κ}

theorem addEdge_self : addEdge child size cur key cur key = some size := if_pos ⟨rfl, rfl⟩

theorem addEdge_of_child (hnew : child cur key = none) (h : child i k = some j) :
    addEdge child size cur key i k = some j := by
  rw [addEdge, if_neg, h]
  rintro ⟨rfl, rfl⟩
  rw [hnew] at h
  cases h

theorem WF.addEdge (h : WF child size) (hcur : cur < size) :
    WF (addEdge child size cur key) (size + 1) where
  forward := by
    intro i k j hij
    rw [Trie.addEdge] at hij
    split at hij
    · rename_i heq
      cases hij
      exact ⟨heq.1 ▸ hcur, Nat.lt_succ_self _⟩
    · exact ⟨(h.forward hij).1, (h.forward hij).2.trans (Nat.lt_succ_self _)⟩
  unique := by
    intro i k j i' k' hij hij'
    rw [Trie.addEdge] at hij hij'
    split at hij
    · -- no edge led to the new node before
      rename_i heq
      cases hij
      split at hij'
      · rename_i heq'
        exact ⟨heq.1.trans heq'.1.symm, heq.2.trans heq'.2.symm⟩
      · exact absurd (h.forward hij').2 (lt_irrefl _)
    · split at hij'
      · cases hij'
        exact absurd (h.forward hij).2 (lt_irrefl _)
      · exact h.unique hij hij'

/-- **What is reached besides the new node** is what was reached before. -/
theorem walk_addEdge_iff (h : WF child size) (hnew : child cur key = none) (hi : i < size)
    (hj : j ≠ size) : walk (addEdge child size cur key) i ks = some j ↔ walk child i ks = some j := by
  induction ks generalizing i with
  | nil => exact Iff.rfl
  | cons k ks ih =>
    rw [walk_cons, walk_cons, Option.bind_eq_some_iff, Option.bind_eq_some_iff]
    constructor
    · rintro ⟨m, hm, hrest⟩
      rw [addEdge] at hm
      split at hm
      · -- nothing comes after the new node
        cases hm
        cases ks with
        | nil =>
          cases hrest
          exact absurd rfl hj
        | cons k' ks =>
          obtain ⟨m', hm', -⟩ := Option.bind_eq_some_iff.mp hrest
          rw [addEdge] at hm'
          split at hm'
          · rename_i heq' heq
            have hlt := hi
            rw [heq'.1, ← heq.1] at hlt
            exact absurd hlt (lt_irrefl _)
          · exact absurd ((h.forward hm').1.trans (h.forward hm').2) (lt_irrefl _)
      · exact ⟨m, hm, (ih (h.forward hm).2).mp hrest⟩
    · rintro ⟨m, hm, hrest⟩
      exact ⟨m, addEdge_of_child hnew hm, (ih (h.forward hm).2).mpr hrest⟩

end AddEdge

end Mapache.Lib.Trie
