import Mathlib.Algebra.BigOperators.Group.List.Basic
import Mathlib.Algebra.Order.Ring.Nat
import Mapache.Lib.Run

/-!
# Jobs behind a fair semaphore

The jobs of a list are started in their order, at most `limit` of them at a time. A job asks a
semaphore for its permits, holds them for a while, gives them back and has something left to do. The
semaphore is fair: permits go to the job that has waited longest, and a later one waits behind it
even when there would be enough for it.

Where no job asks for more permits than there are, none waits forever. A run has at most four steps
for each job (`length_add_weight`), a state in which a job waits is not the last one
(`exists_step_of_waiting`), and the jobs get their permits in their order (`acquired_append`).
-/

set_option autoImplicit false

namespace Mapache.Lib

universe u

variable {α : Type u}

/-- The jobs that are not started, that wait, that hold their permits, and that have given them
back. -/
structure Jobs (α : Type u) where
  todo : List α
  waiting : List α
  holding : List α
  finishing : List α
  available : Nat

/-- What happens to a job. -/
inductive JobEvent (α : Type u) where
  | started (job : α)
  | acquired (job : α)
  | released (job : α)
  | finished (job : α)

/-- The job that gets its permits. -/
def JobEvent.acquires : JobEvent α → Option α
  | .acquired job => some job
  | _ => none

@[simp] theorem JobEvent.acquires_started (job : α) : (started job).acquires = none := rfl
@[simp] theorem JobEvent.acquires_acquired (job : α) : (acquired job).acquires = some job := rfl
@[simp] theorem JobEvent.acquires_released (job : α) : (released job).acquires = none := rfl
@[simp] theorem JobEvent.acquires_finished (job : α) : (finished job).acquires = none := rfl

namespace Jobs

/-- No job is started, and all permits are there. -/
def start (capacity : Nat) (jobs : List α) : Jobs α := ⟨jobs, [], [], [], capacity⟩

/-- The number of jobs that are started and not done. -/
def active (s : Jobs α) : Nat := s.waiting.length + s.holding.length + s.finishing.length

/-- A step of the jobs. -/
inductive Step (limit : Nat) (need : α → Nat) : Jobs α → JobEvent α → Jobs α → Prop where
  | start {s : Jobs α} {job : α} {rest : List α} : s.todo = job :: rest → s.active < limit →
      Step limit need s (.started job) { s with todo := rest, waiting := s.waiting ++ [job] }
  | acquire {s : Jobs α} {job : α} {rest : List α} : s.waiting = job :: rest →
      need job ≤ s.available →
      Step limit need s (.acquired job)
        { s with
          waiting := rest
          holding := s.holding ++ [job]
          available := s.available - need job }
  | release {s : Jobs α} {job : α} {before after : List α} : s.holding = before ++ job :: after →
      Step limit need s (.released job)
        { s with
          holding := before ++ after
          finishing := s.finishing ++ [job]
          available := s.available + need job }
  | finish {s : Jobs α} {job : α} {before after : List α} : s.finishing = before ++ job :: after →
      Step limit need s (.finished job) { s with finishing := before ++ after }

/-- The steps that are left. -/
def weight (s : Jobs α) : Nat :=
  4 * s.todo.length + 3 * s.waiting.length + 2 * s.holding.length + s.finishing.length

section Rules

variable {limit capacity : Nat} {need : α → Nat} {jobs : List α} {s s' : Jobs α} {e : JobEvent α}
  {es : List (JobEvent α)}

/-- Every step is one of those that were left. -/
theorem Step.weight_eq (h : Step limit need s e s') : s.weight = s'.weight + 1 := by
  unfold weight
  cases h with
  | start htodo _ => simp [htodo]; omega
  | acquire hwaiting _ => simp [hwaiting]; omega
  | release hholding => simp [hholding]; omega
  | finish hfinishing => simp [hfinishing]; omega

/-- The permits are with the jobs that hold them, or they are there. -/
theorem Step.permits (h : Step limit need s e s')
    (hs : s.available + (s.holding.map need).sum = capacity) :
    s'.available + (s'.holding.map need).sum = capacity := by
  cases h with
  | start _ _ => exact hs
  | acquire _ hneed =>
    simp only [List.map_append, List.sum_append, List.map_singleton, List.sum_singleton]
    omega
  | release hholding =>
    rw [hholding] at hs
    simp only [List.map_append, List.sum_append, List.map_cons, List.sum_cons] at hs ⊢
    omega
  | finish _ => exact hs

/-- The permits that are there and those that are held are all permits. -/
theorem permits_eq (h : Run (Step limit need) (start capacity jobs) es s) :
    s.available + (s.holding.map need).sum = capacity := by
  apply h.invariant (P := fun s => s.available + (s.holding.map need).sum = capacity)
  · intro s e s' hs hstep
    exact hstep.permits hs
  · rfl

/-- **A run is not longer than four steps for each job.** -/
theorem length_add_weight (h : Run (Step limit need) (start capacity jobs) es s) :
    es.length + s.weight = 4 * jobs.length := by
  induction h with
  | nil => simp [start, weight]
  | snoc _ hstep ih =>
    have hweight := hstep.weight_eq
    rw [List.length_append, List.length_singleton]
    omega

/-- **The permits are given out in the order of the jobs.** -/
theorem acquired_append (h : Run (Step limit need) (start capacity jobs) es s) :
    es.filterMap JobEvent.acquires ++ s.waiting ++ s.todo = jobs := by
  induction h with
  | nil => rfl
  | snoc _ hstep ih =>
    rw [List.filterMap_append]
    cases hstep with
    | start htodo _ =>
      rw [htodo] at ih
      simpa [List.filterMap_cons] using ih
    | acquire hwaiting _ =>
      rw [hwaiting] at ih
      simpa [List.filterMap_cons] using ih
    | release _ => simpa [List.filterMap_cons] using ih
    | finish _ => simpa [List.filterMap_cons] using ih

/-- **No job waits forever** where none asks for more permits than there are: the first one that
waits gets its permits now, or another one can give some back. -/
theorem exists_step_of_waiting (hneed : ∀ job ∈ jobs, need job ≤ capacity)
    (h : Run (Step limit need) (start capacity jobs) es s) (hwaiting : s.waiting ≠ []) :
    ∃ e s', Step limit need s e s' := by
  cases hholding : s.holding with
  | cons job rest =>
    have hfirst : s.holding = [] ++ job :: rest := hholding
    exact ⟨_, _, .release hfirst⟩
  | nil =>
    -- nobody holds a permit, so all of them are there
    have hall := permits_eq h
    rw [hholding, List.map_nil, List.sum_nil, Nat.add_zero] at hall
    cases hfirst : s.waiting with
    | nil => exact absurd hfirst hwaiting
    | cons job rest =>
      have hjobs := acquired_append h
      have hmem : job ∈ jobs := by
        rw [← hjobs, hfirst]
        simp
      exact ⟨_, _, .acquire hfirst (hall ▸ hneed job hmem)⟩

/-- A run that cannot go on has given every job its permits. -/
theorem acquired_of_final (hneed : ∀ job ∈ jobs, need job ≤ capacity) (hlimit : 0 < limit)
    (h : Run (Step limit need) (start capacity jobs) es s)
    (hfinal : ∀ e s', ¬ Step limit need s e s') : es.filterMap JobEvent.acquires = jobs := by
  have hwaiting : s.waiting = [] := by
    by_contra hne
    obtain ⟨e, s', hstep⟩ := exists_step_of_waiting hneed h hne
    exact hfinal e s' hstep
  have hholding : s.holding = [] := by
    cases hheld : s.holding with
    | nil => rfl
    | cons job rest =>
      have hfirst : s.holding = [] ++ job :: rest := hheld
      exact absurd (.release hfirst) (hfinal _ _)
  have hfinishing : s.finishing = [] := by
    cases hleft : s.finishing with
    | nil => rfl
    | cons job rest =>
      have hfirst : s.finishing = [] ++ job :: rest := hleft
      exact absurd (.finish hfirst) (hfinal _ _)
  have hactive : s.active = 0 := by
    rw [active, hwaiting, hholding, hfinishing]
    rfl
  have htodo : s.todo = [] := by
    cases hnext : s.todo with
    | nil => rfl
    | cons job rest => exact absurd (.start hnext (hactive ▸ hlimit)) (hfinal _ _)
  have hjobs := acquired_append h
  rwa [hwaiting, htodo, List.append_nil, List.append_nil] at hjobs

end Rules

end Jobs

end Mapache.Lib
