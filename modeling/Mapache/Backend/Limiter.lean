import Mathlib.Algebra.Order.BigOperators.Group.List
import Mathlib.Algebra.Order.Ring.Nat
import Mapache.Lib.CasLoop

/-!
# The rate limiter

`RateLimiter::consume` of `backend/limiter.rs`: one atomic clock says when the limiter is free, and
every call moves it on by the duration of its amount. All times are in nanoseconds.

The start times of the calls lie at least the durations of the calls in between apart
(`sum_add_le_startTime`), and a call proceeds at most `MIN_SLEEP` before its start time. So what is
let through by some time is bounded by the time since the first call and the burst
(`consume_bounded`).
-/

set_option autoImplicit false

namespace Mapache

open Lib

/-! ## The code -/

/-- `u64::MAX`. -/
def u64Max : Nat := 2 ^ 64 - 1

/-- `saturating_add`. -/
def saturatingAdd (a b : Nat) : Nat := min (a + b) u64Max

/-- `burst_ns`. -/
def burstNs : Nat := 1000000000

/-- `max_debt_ns`. -/
def maxDebtNs : Nat := 30000000000

/-- `MIN_SLEEP`. -/
def minSleep : Nat := 10000000

/-- A call of `consume` with what the clock shows. -/
structure Consume where
  amount : Nat
  elapsed : Nat
  deriving DecidableEq

namespace Consume

/-- `now_ns`, cut to 64 bits. -/
def now (call : Consume) : Nat := call.elapsed % 2 ^ 64

/-- The duration of the amount. -/
def duration (limitBps : Nat) (call : Consume) : Nat := call.amount * 1000000000 / limitBps

/-- `nanos_to_add`. -/
def nanosToAdd (limitBps : Nat) (call : Consume) : Nat := min (call.duration limitBps) u64Max

/-- The start that the limiter has for the call, before it is cut. -/
def requestedStart (call : Consume) (currentFree : Nat) : Nat :=
  max currentFree (call.now - burstNs)

/-- `start_time`, not behind `max_free`. -/
def startTime (call : Consume) (currentFree : Nat) : Nat :=
  min (call.requestedStart currentFree) (saturatingAdd call.now maxDebtNs)

/-- `new_free`. -/
def newFree (limitBps : Nat) (call : Consume) (currentFree : Nat) : Nat :=
  saturatingAdd (call.startTime currentFree) (call.nanosToAdd limitBps)

/-- What `consume` returns after its exchange. -/
def wait (call : Consume) (currentFree : Nat) : Nat :=
  if call.startTime currentFree ≤ call.now then 0
  else if call.startTime currentFree - call.now < minSleep then 0
  else call.startTime currentFree - call.now

/-- A call with nothing to consume returns at once. -/
def Enters (limitBps : Nat) (call : Consume) : Prop := ¬ (limitBps = 0 ∨ call.amount = 0)

end Consume

/-- `RateLimiter::new`: the clock starts one second on. -/
def newLimiter (τ : Type) : CasState Consume Nat τ := .start 1000000000

/-- The tasks that use a limiter. -/
def LimiterStep {τ : Type} [DecidableEq τ] (limitBps : Nat) :
    CasState Consume Nat τ → Option (Consume × Nat) → CasState Consume Nat τ → Prop :=
  CasState.Step (Consume.Enters limitBps) (Consume.newFree limitBps)

/-! ## One call -/

section Call

variable {limitBps : Nat} {call : Consume} {free : Nat}

/-- The call is not cut by the cap on the debt, and nothing in it saturates. -/
structure Consume.Unhindered (limitBps : Nat) (call : Consume) (free : Nat) : Prop where
  uncut : call.requestedStart free ≤ saturatingAdd call.now maxDebtNs
  duration_le : call.duration limitBps ≤ u64Max
  newFree_le : call.startTime free + call.duration limitBps ≤ u64Max

theorem Consume.wait_le (call : Consume) (free : Nat) : call.wait free ≤ maxDebtNs := by
  have hstart : call.startTime free ≤ call.now + maxDebtNs :=
    (min_le_right _ _).trans (min_le_left _ _)
  unfold Consume.wait
  split
  · exact Nat.zero_le _
  · split
    · exact Nat.zero_le _
    · omega

/-- A call proceeds at its start time, up to the smallest sleep. -/
theorem Consume.startTime_le (call : Consume) (free : Nat) :
    call.startTime free ≤ call.now + call.wait free + minSleep := by
  unfold Consume.wait
  split
  · omega
  · split
    · omega
    · omega

theorem Consume.Unhindered.startTime_eq (h : call.Unhindered limitBps free) :
    call.startTime free = call.requestedStart free :=
  min_eq_left h.uncut

theorem Consume.Unhindered.newFree_eq (h : call.Unhindered limitBps free) :
    call.newFree limitBps free = call.startTime free + call.duration limitBps := by
  unfold Consume.newFree Consume.nanosToAdd saturatingAdd
  rw [min_eq_left h.duration_le]
  exact min_eq_left h.newFree_le

theorem Consume.Unhindered.free_le (h : call.Unhindered limitBps free) :
    free ≤ call.startTime free := by
  rw [h.startTime_eq]
  exact le_max_left _ _

theorem Consume.Unhindered.now_le (h : call.Unhindered limitBps free) :
    call.now ≤ call.startTime free + burstNs := by
  rw [h.startTime_eq]
  have hmin : call.now - burstNs ≤ call.requestedStart free := le_max_right _ _
  omega

end Call

/-! ## All calls -/

section Calls

variable {limitBps : Nat}

/-- The calls in front of one have their durations before its start. -/
theorem sum_add_le_startTime {front back : List (Consume × Nat)} {last : Consume × Nat}
    {free result : Nat}
    (h : Replay (Consume.newFree limitBps) free (front ++ last :: back) result)
    (hfine : ∀ c ∈ front ++ last :: back, c.1.Unhindered limitBps c.2) :
    free + (front.map fun c => c.1.duration limitBps).sum ≤ last.1.startTime last.2 := by
  induction front generalizing free with
  | nil =>
    have hlast := (hfine last List.mem_cons_self).free_le
    rw [h.1] at hlast ⊢
    simpa using hlast
  | cons c front ih =>
    -- the rest of the calls sees the clock that this one leaves behind
    have hc := hfine c List.mem_cons_self
    have hrest := ih h.2 fun d hd => hfine d (List.mem_cons_of_mem c hd)
    have hfree := hc.free_le
    rw [hc.newFree_eq] at hrest
    rw [h.1] at hfree hrest
    rw [List.map_cons, List.sum_cons]
    omega

/-- The first call starts at most the burst before its clock, and the others follow it. -/
theorem sum_add_now_le {first last : Consume × Nat} {calls front back : List (Consume × Nat)}
    {free result : Nat}
    (h : Replay (Consume.newFree limitBps) free (first :: calls) result)
    (hfine : ∀ c ∈ first :: calls, c.1.Unhindered limitBps c.2)
    (hsplit : first :: calls = front ++ last :: back) :
    (front.map fun c => c.1.duration limitBps).sum + first.1.now ≤
      last.1.startTime last.2 + burstNs := by
  have hfirst := hfine first List.mem_cons_self
  have hnow := hfirst.now_le
  -- only the first call is compared with its own clock, the others with what it leaves
  cases front with
  | nil =>
    rw [List.nil_append] at hsplit
    cases hsplit
    simpa using hnow
  | cons c front =>
    rw [List.cons_append] at hsplit
    cases hsplit
    have hrest := sum_add_le_startTime h.2 fun d hd => hfine d (List.mem_cons_of_mem _ hd)
    rw [hfirst.newFree_eq] at hrest
    rw [List.map_cons, List.sum_cons]
    omega

/-- With any tasks and any clocks no wait is longer than the cap. As long as no call is cut or
saturates, the calls that proceed by the time `T`, all but the last of them, are those of a limiter
that was free 1.01 seconds before the clock of the first call. -/
theorem consume_bounded {τ : Type} [DecidableEq τ]
    {ls : List (Option (Consume × Nat))} {s : CasState Consume Nat τ}
    (hrun : Run (LimiterStep limitBps) (newLimiter τ) ls s) :
    (∀ c ∈ exchanges ls, c.1.wait c.2 ≤ 30000000000) ∧
      ((∀ c ∈ exchanges ls, c.1.Unhindered limitBps c.2) →
        ∀ (T : Nat) (first last : Consume × Nat) (others : List (Consume × Nat)),
          (exchanges ls).head? = some first →
          ((exchanges ls).filter fun c => c.1.now + c.1.wait c.2 ≤ T) = others ++ [last] →
          (others.map fun c => c.1.amount * 1000000000 / limitBps).sum + first.1.now ≤
            T + 1010000000) := by
  refine ⟨fun c _ => c.1.wait_le c.2, fun hfine T first last others hhead hallowed => ?_⟩
  have hreplay := hrun.replay
  obtain ⟨calls, hcalls⟩ := List.head?_eq_some_iff.mp hhead
  -- the calls in front of the last one that is let through, be they let through or not
  obtain ⟨front, rest, hsplit, hothers, hrest⟩ := List.filter_eq_append_iff.mp hallowed
  obtain ⟨skipped, back, rfl, -, hlast, -⟩ := List.filter_eq_cons_iff.mp hrest
  rw [← List.append_assoc] at hsplit
  rw [hcalls] at hreplay hfine hsplit
  have hsum := sum_add_now_le hreplay hfine hsplit
  have hsub : (others.map fun c => c.1.duration limitBps).sum ≤
      ((front ++ skipped).map fun c => c.1.duration limitBps).sum := by
    rw [← hothers]
    exact (((List.filter_sublist).trans (List.sublist_append_left front skipped)).map _).sum_le_sum
      fun _ _ => Nat.zero_le _
  have hstart := last.1.startTime_le last.2
  have htime : last.1.now + last.1.wait last.2 ≤ T := by simpa using hlast
  simp only [burstNs, minSleep] at hsum hstart
  change (others.map fun c => c.1.duration limitBps).sum + first.1.now ≤ T + 1010000000
  omega

/-- Two tasks at 1000 bytes per second. The second one has loaded the clock before the first one
moves it on, so its exchange fails, and it loads the clock again. -/
theorem exists_race : ∃ ls s, Run (LimiterStep 1000) (newLimiter Bool) ls s ∧
    exchanges ls = [(⟨1000, 1000000000⟩, 1000000000), (⟨500, 1000000000⟩, 2000000000)] := by
  have henters : ∀ amount elapsed, amount ≠ 0 → Consume.Enters 1000 ⟨amount, elapsed⟩ := by
    rintro amount elapsed hne (hlimit | hzero)
    · cases hlimit
    · exact hne hzero
  have hfree : Consume.newFree 1000 ⟨1000, 1000000000⟩ 1000000000 = 2000000000 := by decide
  have hcall₀ : Run (LimiterStep 1000) (newLimiter Bool) _ _ :=
    .snoc .nil (.call (i := false) rfl (henters 1000 1000000000 (by decide)))
  have hcall₁ := hcall₀.snoc (.call (i := true) rfl (henters 500 1000000000 (by decide)))
  have hload₁ := hcall₁.snoc (.load (i := true) rfl)
  have hload₀ := hload₁.snoc (.load (i := false) rfl)
  have hexchange₀ := hload₀.snoc (.exchange (i := false) rfl rfl)
  have hfail₁ := hexchange₀.snoc (.fail (i := true) rfl)
  have hreload₁ := hfail₁.snoc (.load (i := true) rfl)
  have hrun := hreload₁.snoc (.exchange (i := true) rfl rfl)
  refine ⟨_, _, hrun, ?_⟩
  rw [← hfree]
  rfl

/-- The second call waits for one second. -/
theorem consume_bounded_race :
    ∃ ls s, Run (LimiterStep 1000) (newLimiter Bool) ls s ∧
      (∀ c ∈ exchanges ls, c.1.wait c.2 ≤ 30000000000) ∧
      ([(⟨1000, 1000000000⟩, 1000000000)].map fun c : Consume × Nat =>
        c.1.amount * 1000000000 / 1000).sum + 1000000000 ≤ 2000000000 + 1010000000 := by
  obtain ⟨ls, s, hrun, hlog⟩ := exists_race
  have h := consume_bounded hrun
  refine ⟨ls, s, hrun, h.1, ?_⟩
  rw [hlog] at h
  have hfine : ∀ c ∈ [((⟨1000, 1000000000⟩, 1000000000) : Consume × Nat),
      (⟨500, 1000000000⟩, 2000000000)], c.1.Unhindered 1000 c.2 := by
    simp only [List.forall_mem_cons]
    exact ⟨⟨by decide, by decide, by decide⟩, ⟨by decide, by decide, by decide⟩,
      List.forall_mem_nil _⟩
  have hfilter : ([((⟨1000, 1000000000⟩, 1000000000) : Consume × Nat),
      (⟨500, 1000000000⟩, 2000000000)].filter fun c => c.1.now + c.1.wait c.2 ≤ 2000000000) =
        [(⟨1000, 1000000000⟩, 1000000000)] ++ [(⟨500, 1000000000⟩, 2000000000)] := by
    decide
  exact h.2 hfine 2000000000 _ _ _ rfl hfilter

end Calls

end Mapache
