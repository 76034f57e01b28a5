import Mathlib.Logic.Function.Basic

/-!
# Acting at most once

Several agents share one task that is to be done at most once. An agent looks at a mark; if the mark
is not set it enters, acts, and sets the mark before it leaves. `ActOnce.Step` is what one step of
such agents can do when an agent enters only while nobody else is inside and the mark is not set,
and `ActOnce.Inv` is what these steps keep: the task is done at most once.
-/

set_option autoImplicit false

namespace Mapache.Lib.ActOnce

universe u

variable {κ : Type u}

/-- Where an agent stands. -/
inductive Stage where
  | out
  /-- It has found the mark not set and has not acted yet. -/
  | entered
  /-- It has acted and has not set the mark yet. -/
  | acted
  deriving DecidableEq

/-- The agents, the number of times that one of them acted, and the mark. -/
structure State (κ : Type u) where
  stage : κ → Stage
  acts : Nat
  marked : Prop

/-- A step of the agents. The mark may be set at any time and is never taken away. -/
inductive Step [DecidableEq κ] (s s' : State κ) : Prop where
  | stay : s'.stage = s.stage → s'.acts = s.acts → (s.marked → s'.marked) → Step s s'
  | enter (k : κ) : (∀ k', s.stage k' = .out) → ¬ s.marked →
      s'.stage = Function.update s.stage k .entered → s'.acts = s.acts → Step s s'
  | act (k : κ) : s.stage k = .entered → s'.stage = Function.update s.stage k .acted →
      s'.acts = s.acts + 1 → Step s s'
  | giveUp (k : κ) : s.stage k = .entered → s'.stage = Function.update s.stage k .out →
      s'.acts = s.acts → Step s s'
  | leave (k : κ) : s.stage k = .acted → s'.stage = Function.update s.stage k .out →
      s'.acts = s.acts → s'.marked → Step s s'

/-- At most one agent is inside. Before it acts nobody has acted; once somebody has acted, the mark
is set or the agent that will set it is inside. -/
structure Inv (s : State κ) : Prop where
  alone : ∀ k k', s.stage k ≠ .out → s.stage k' ≠ .out → k = k'
  entered : ∀ k, s.stage k = .entered → s.acts = 0
  acted : 0 < s.acts → s.marked ∨ ∃ k, s.stage k = .acted
  once : s.acts ≤ 1

theorem Inv.init {s : State κ} (hstage : ∀ k, s.stage k = .out) (hacts : s.acts = 0) : Inv s where
  alone := fun k _ hk _ => absurd (hstage k) hk
  entered := fun _ _ => hacts
  acted := fun hpos => by omega
  once := by omega

/-- An agent inside is the only one. -/
theorem Inv.others_out {s : State κ} {k : κ} (h : Inv s) (hk : s.stage k ≠ .out) {k' : κ}
    (hne : k' ≠ k) : s.stage k' = .out := by
  by_contra hin
  exact hne (h.alone k' k hin hk)

section Update

variable [DecidableEq κ] {s s' : State κ} {k : κ} {p : Stage}

/-- When everybody else is outside, at most one agent is inside after a move. -/
theorem alone_update (hout : ∀ k', k' ≠ k → s.stage k' = .out)
    (hs' : s'.stage = Function.update s.stage k p) :
    ∀ k₁ k₂, s'.stage k₁ ≠ .out → s'.stage k₂ ≠ .out → k₁ = k₂ := by
  have hin : ∀ k', s'.stage k' ≠ .out → k' = k := by
    intro k' hk'
    by_contra hne
    rw [hs', Function.update_of_ne hne] at hk'
    exact hk' (hout k' hne)
  intro k₁ k₂ h₁ h₂
  rw [hin k₁ h₁, hin k₂ h₂]

/-- An agent that is inside after a move is the one that moved. -/
theorem stage_update (hout : ∀ k', k' ≠ k → s.stage k' = .out)
    (hs' : s'.stage = Function.update s.stage k p) {k' : κ} {q : Stage} (hq : q ≠ .out)
    (hk' : s'.stage k' = q) : p = q := by
  by_cases heq : k' = k
  · rw [hs', heq, Function.update_self] at hk'
    exact hk'
  · rw [hs', Function.update_of_ne heq, hout k' heq] at hk'
    exact absurd hk'.symm hq

end Update

/-- **Every step keeps the invariant.** -/
theorem Inv.step [DecidableEq κ] {s s' : State κ} (h : Inv s) (hstep : Step s s') : Inv s' := by
  cases hstep with
  | stay hstage hacts hmark =>
    refine ⟨?_, ?_, ?_, ?_⟩
    · rw [hstage]
      exact h.alone
    · rw [hstage, hacts]
      exact h.entered
    · rw [hstage, hacts]
      exact fun hpos => (h.acted hpos).imp_left hmark
    · rw [hacts]
      exact h.once
  | enter k hout hmark hstage hacts =>
    -- nobody has acted: there is no mark and nobody inside who would set it
    have hzero : s.acts = 0 := by
      by_contra hne
      rcases h.acted (Nat.pos_of_ne_zero hne) with hm | ⟨k', hk'⟩
      · exact hmark hm
      · rw [hout k'] at hk'
        cases hk'
    refine ⟨alone_update (fun k' _ => hout k') hstage, ?_, ?_, ?_⟩
    · exact fun _ _ => hacts.trans hzero
    · intro hpos
      omega
    · omega
  | act k hk hstage hacts =>
    have hzero := h.entered k hk
    have hout : ∀ k', k' ≠ k → s.stage k' = .out :=
      fun k' hne => h.others_out (by rw [hk]; decide) hne
    refine ⟨alone_update hout hstage, ?_, ?_, ?_⟩
    · intro k' hk'
      cases stage_update hout hstage (by decide) hk'
    · exact fun _ => Or.inr ⟨k, by rw [hstage, Function.update_self]⟩
    · omega
  | giveUp k hk hstage hacts =>
    have hzero := h.entered k hk
    have hout : ∀ k', k' ≠ k → s.stage k' = .out :=
      fun k' hne => h.others_out (by rw [hk]; decide) hne
    refine ⟨alone_update hout hstage, ?_, ?_, ?_⟩
    · exact fun _ _ => hacts.trans hzero
    · intro hpos
      omega
    · omega
  | leave k hk hstage hacts hmark =>
    have hout : ∀ k', k' ≠ k → s.stage k' = .out :=
      fun k' hne => h.others_out (by rw [hk]; decide) hne
    refine ⟨alone_update hout hstage, ?_, fun _ => Or.inl hmark, ?_⟩
    · intro k' hk'
      cases stage_update hout hstage (by decide) hk'
    · rw [hacts]
      exact h.once

end Mapache.Lib.ActOnce
