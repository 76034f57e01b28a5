import Mathlib.Order.Basic

/-!
# Runs of labelled transition systems

A system is a step relation `step s l t` between states, labelled by what the step does. `Run step s
ls t` is a finite run from `s` to `t` whose steps carry the labels `ls` in order. Every safety
result of the development is an instance of one of the two invariant rules below: `Run.invariant`
for a property that each step keeps, and `Run.invariant_of_labels` for a property that the steps
with an admitted label keep. `Guarded` restricts a system to the steps that meet a condition on the
state they leave, so that "every run whose steps all meet the condition" is again a run of a system.
-/

set_option autoImplicit false

namespace Mapache.Lib

universe u v

variable {σ : Type u} {ℓ : Type v}

/-- A finite run from `s`, with its labels in the order of the steps. -/
inductive Run (step : σ → ℓ → σ → Prop) (s : σ) : List ℓ → σ → Prop where
  | nil : Run step s [] s
  | snoc {ls : List ℓ} {t u : σ} {l : ℓ} : Run step s ls t → step t l u → Run step s (ls ++ [l]) u

/-- The steps of a system that meet a condition on the state before the step and its label. -/
def Guarded (step : σ → ℓ → σ → Prop) (ok : σ → ℓ → Prop) (s : σ) (l : ℓ) (t : σ) : Prop :=
  step s l t ∧ ok s l

section Rules

variable {step : σ → ℓ → σ → Prop}

/-- A property that every step keeps holds at the end of every run. -/
theorem Run.invariant {P : σ → Prop} (hstep : ∀ s l t, P s → step s l t → P t) {s t : σ}
    {ls : List ℓ} (h : Run step s ls t) (hs : P s) : P t := by
  induction h with
  | nil => exact hs
  | snoc _ hst ih => exact hstep _ _ _ ih hst

/-- A property that every step with an admitted label keeps holds at the end of every run whose
labels are all admitted. -/
theorem Run.invariant_of_labels {P : σ → Prop} {Q : ℓ → Prop}
    (hstep : ∀ s l t, Q l → P s → step s l t → P t) {s t : σ} {ls : List ℓ}
    (h : Run step s ls t) (hls : ∀ l ∈ ls, Q l) (hs : P s) : P t := by
  induction h with
  | nil => exact hs
  | snoc _ hst ih =>
    have hinit := ih fun l hl => hls l (List.mem_append_left _ hl)
    exact hstep _ _ _ (hls _ (List.mem_append_right _ (List.mem_singleton_self _))) hinit hst

/-- A run goes on with another one. -/
theorem Run.trans {s t u : σ} {ls ls' : List ℓ} (h : Run step s ls t) (h' : Run step t ls' u) :
    Run step s (ls ++ ls') u := by
  induction h' with
  | nil =>
    rw [List.append_nil]
    exact h
  | snoc _ hst ih =>
    rw [← List.append_assoc]
    exact ih.snoc hst

/-- A run of one system is a run of another one whose steps match. -/
theorem Run.map {σ' : Type*} {ℓ' : Type*} {step' : σ' → ℓ' → σ' → Prop} (f : σ → σ') (g : ℓ → ℓ')
    (hstep : ∀ s l t, step s l t → step' (f s) (g l) (f t)) {s t : σ} {ls : List ℓ}
    (h : Run step s ls t) : Run step' (f s) (ls.map g) (f t) := by
  induction h with
  | nil => exact .nil
  | snoc _ hst ih =>
    rw [List.map_append]
    exact ih.snoc (hstep _ _ _ hst)

/-- A run is one of every system that has its steps. -/
theorem Run.mono {step' : σ → ℓ → σ → Prop} {s t : σ} {ls : List ℓ} (h : Run step s ls t)
    (hstep : ∀ s l t, step s l t → step' s l t) : Run step' s ls t := by
  have hrun : Run step' (id s) (ls.map id) (id t) := h.map id id hstep
  rwa [List.map_id] at hrun

end Rules

end Mapache.Lib
