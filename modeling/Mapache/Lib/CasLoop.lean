import Mathlib.Logic.Function.Basic
import Mapache.Lib.Run

/-!
# Compare-and-swap loops

Any number of tasks share one atomic cell. A call has an argument; it loads the cell, computes a new
value from its argument and from what it saw, and exchanges it if the cell still holds what it saw.
The exchange may also fail without a reason, and the call starts over with a load. The label of a
step is the exchange that it makes.

The exchanges of a run, in their order, are a sequential execution (`Run.replay`): each of them saw
what the one before it had left in the cell.
-/

set_option autoImplicit false

namespace Mapache.Lib

universe u v w

variable {ι : Type u} {α : Type v} {τ : Type w}

/-- Where a task is in its call. -/
inductive CasPhase (ι : Type u) (α : Type v) where
  | idle
  | spinning (arg : ι)
  | loaded (arg : ι) (seen : α)

/-- The cell and the tasks. -/
structure CasState (ι : Type u) (α : Type v) (τ : Type w) where
  cell : α
  tasks : τ → CasPhase ι α

/-- No task is in a call. -/
def CasState.start (cell : α) : CasState ι α τ := ⟨cell, fun _ => .idle⟩

section Step

variable [DecidableEq τ] (enters : ι → Prop) (update : ι → α → α)

/-- The steps of the tasks. Only some arguments lead into the loop. -/
inductive CasState.Step : CasState ι α τ → Option (ι × α) → CasState ι α τ → Prop where
  | call {s : CasState ι α τ} {i : τ} {arg : ι} :
      s.tasks i = .idle → enters arg →
      Step s none { s with tasks := Function.update s.tasks i (.spinning arg) }
  | load {s : CasState ι α τ} {i : τ} {arg : ι} :
      s.tasks i = .spinning arg →
      Step s none { s with tasks := Function.update s.tasks i (.loaded arg s.cell) }
  | fail {s : CasState ι α τ} {i : τ} {arg : ι} {seen : α} :
      s.tasks i = .loaded arg seen →
      Step s none { s with tasks := Function.update s.tasks i (.spinning arg) }
  | exchange {s : CasState ι α τ} {i : τ} {arg : ι} {seen : α} :
      s.tasks i = .loaded arg seen → s.cell = seen →
      Step s (some (arg, seen)) ⟨update arg seen, Function.update s.tasks i .idle⟩

end Step

/-- The exchanges of a run. -/
def exchanges (ls : List (Option (ι × α))) : List (ι × α) := ls.filterMap id

/-- The calls one after the other: each sees what the cell holds and leaves its update. -/
def Replay (update : ι → α → α) : α → List (ι × α) → α → Prop
  | cell, [], result => result = cell
  | cell, (arg, seen) :: calls, result =>
    seen = cell ∧ Replay update (update arg seen) calls result

section Rules

variable {update : ι → α → α}

theorem Replay.snoc {cell result : α} {calls : List (ι × α)} (h : Replay update cell calls result)
    (arg : ι) : Replay update cell (calls ++ [(arg, result)]) (update arg result) := by
  induction calls generalizing cell with
  | nil =>
    cases h
    exact ⟨rfl, rfl⟩
  | cons call calls ih => exact ⟨h.1, ih h.2⟩

variable [DecidableEq τ] {enters : ι → Prop}

/-- The exchanges of a run are a sequential execution of its calls. -/
theorem Run.replay {s t : CasState ι α τ} {ls : List (Option (ι × α))}
    (h : Run (CasState.Step enters update) s ls t) :
    Replay update s.cell (exchanges ls) t.cell := by
  induction h with
  | nil => rfl
  | snoc _ hstep ih =>
    rw [exchanges, List.filterMap_append]
    cases hstep with
    | call _ _ => simpa [exchanges] using ih
    | load _ => simpa [exchanges] using ih
    | fail _ => simpa [exchanges] using ih
    | exchange _ hcell =>
      subst hcell
      exact ih.snoc _

end Rules

end Mapache.Lib
