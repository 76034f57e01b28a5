import Mathlib.Data.Nat.Init
import Mapache.Lib.Run

/-!
# Runs that come to an end

A system whose steps lower a measure and that can step wherever it is not final reaches a final
state from every state (`exists_final_run`). The measure may depend on an invariant.
-/

set_option autoImplicit false

namespace Mapache.Lib

universe u v

variable {σ : Type u} {ℓ : Type v} {step : σ → ℓ → σ → Prop}

/-- There is a step. -/
def CanStep (step : σ → ℓ → σ → Prop) (s : σ) : Prop := ∃ l t, step s l t

/-- A run to a final state, by induction on the measure. -/
theorem exists_final_run (P Final : σ → Prop) (measure : σ → Nat)
    (hstep : ∀ s l t, P s → step s l t → P t ∧ measure t < measure s)
    (hprogress : ∀ s, P s → ¬ Final s → CanStep step s) {s : σ} (hs : P s) :
    ∃ ls t, Run step s ls t ∧ P t ∧ Final t := by
  generalize hn : measure s = n
  induction n using Nat.strongRecOn generalizing s with
  | ind n ih =>
    by_cases hfinal : Final s
    · exact ⟨[], s, .nil, hs, hfinal⟩
    · obtain ⟨l, t, hst⟩ := hprogress s hs hfinal
      obtain ⟨ht, hlt⟩ := hstep s l t hs hst
      obtain ⟨ls, u, hrun, hu, hend⟩ := ih (measure t) (hn ▸ hlt) ht rfl
      exact ⟨[l] ++ ls, u, Run.trans (.snoc .nil hst) hrun, hu, hend⟩

end Mapache.Lib
