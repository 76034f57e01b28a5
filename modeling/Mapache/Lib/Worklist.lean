import Mathlib.Data.List.Perm.Basic

/-!
# Worklists

A loop takes an item off a list, appends what the item gives to its results and puts the further
items it finds on the list, in front, behind or in between. `Unfolds step items out rounds` says that
the items and all that is found under them are finitely many, `rounds` of them, and that together they
give `out`. Then the loop ends after `rounds` rounds whatever the order in which it works, and its
results are a permutation of `out` (`worklist_of_unfolds`).
-/

set_option autoImplicit false

namespace Mapache.Lib

universe u v w

variable {ε : Type u} {α : Type v} {β : Type w}

/-- The loop, for a number of rounds. `push new rest` is the list after the items `new` are put on
`rest`. -/
def worklist (step : α → Except ε (List β × List α)) (push : List α → List α → List α) :
    Nat → List α → Except ε (Option (List β))
  | _, [] => .ok (some [])
  | 0, _ :: _ => .ok none
  | fuel + 1, item :: rest =>
    match step item with
    | .error e => .error e
    | .ok (out, new) =>
      (worklist step push fuel (push new rest)).map fun results => results.map (out ++ ·)

/-- What the items and all that is found under them give, and how many items these are. -/
inductive Unfolds (step : α → Except ε (List β × List α)) : List α → List β → Nat → Prop where
  | nil : Unfolds step [] [] 0
  | cons {item : α} {rest new : List α} {out under beside : List β} {n m : Nat} :
      step item = .ok (out, new) → Unfolds step new under n → Unfolds step rest beside m →
      Unfolds step (item :: rest) (out ++ under ++ beside) (n + m + 1)

namespace Unfolds

variable {step : α → Except ε (List β × List α)} {items items' : List α} {out out' : List β}
  {n m : Nat}

theorem append (h : Unfolds step items out n) (h' : Unfolds step items' out' m) :
    Unfolds step (items ++ items') (out ++ out') (n + m) := by
  induction h with
  | nil => simpa using h'
  | @cons item rest new first under beside k l hstep hnew _ _ ih =>
    have hcons := Unfolds.cons hstep hnew ih
    simpa only [List.append_assoc, List.cons_append, Nat.add_assoc, Nat.add_comm m 1] using hcons

/-- The order of the items changes the order of the results only. -/
theorem perm (h : Unfolds step items out n) (hperm : items.Perm items') :
    ∃ out', Unfolds step items' out' n ∧ out'.Perm out := by
  induction hperm generalizing out n with
  | nil => exact ⟨out, h, .refl _⟩
  | cons item _ ih =>
    cases h with
    | cons hstep hnew hrest =>
      obtain ⟨beside, hbeside, hperm⟩ := ih hrest
      exact ⟨_, .cons hstep hnew hbeside, hperm.append_left _⟩
  | swap item item' rest =>
    cases h with
    | @cons _ _ new first under _ k _ hstep hnew hrest =>
      cases hrest with
      | @cons _ _ new' first' under' beside k' l hstep' hnew' hbeside =>
        have hboth := Unfolds.cons hstep' hnew' (.cons hstep hnew hbeside)
        rw [show k' + (k + l + 1) + 1 = k + (k' + l + 1) + 1 by omega] at hboth
        refine ⟨_, hboth, ?_⟩
        have hswap : ((first' ++ under') ++ (first ++ under)).Perm
            ((first ++ under) ++ (first' ++ under')) := List.perm_append_comm
        simpa only [List.append_assoc] using hswap.append_right beside
  | trans _ _ ih ih' =>
    obtain ⟨out₁, h₁, hperm₁⟩ := ih h
    obtain ⟨out₂, h₂, hperm₂⟩ := ih' h₁
    exact ⟨out₂, h₂, hperm₂.trans hperm₁⟩

end Unfolds

/-- The loop ends, in any order of work, and gives what the items unfold to. -/
theorem worklist_of_unfolds {step : α → Except ε (List β × List α)}
    {push : List α → List α → List α} (hpush : ∀ new rest, (push new rest).Perm (new ++ rest))
    {items : List α} {out : List β} {n fuel : Nat} (h : Unfolds step items out n)
    (hfuel : n ≤ fuel) :
    ∃ out', worklist step push fuel items = .ok (some out') ∧ out'.Perm out := by
  induction fuel generalizing items out n with
  | zero =>
    cases h with
    | nil => exact ⟨[], rfl, .refl _⟩
    | cons => omega
  | succ fuel ih =>
    cases h with
    | nil => exact ⟨[], rfl, .refl _⟩
    | @cons item rest new first under beside k l hstep hnew hrest =>
      -- the list after the round is another order of the items that remain
      obtain ⟨out₁, h₁, hperm₁⟩ := (hnew.append hrest).perm (hpush new rest).symm
      obtain ⟨out₂, hrun, hperm₂⟩ := ih h₁ (by omega)
      refine ⟨first ++ out₂, ?_, ?_⟩
      · rw [worklist, hstep]
        dsimp only
        rw [hrun]
        rfl
      · rw [List.append_assoc]
        exact (hperm₂.trans hperm₁).append_left first

end Mapache.Lib
