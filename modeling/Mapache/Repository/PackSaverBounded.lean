import Mathlib.Algebra.BigOperators.Group.Finset.Piecewise
import Mathlib.Algebra.BigOperators.Fin
import Mathlib.Algebra.Order.BigOperators.Group.Finset
import Mapache.Repository.SaveBlob

/-!
# The channels of the pack pipeline

The pack pipeline with the bounds of its channels and with the coordinator, the thread of
`PackSaver::new` that joins the workers and keeps an end of both worker channels until then. Of the
`n + 2` packers two are always in the slots of the saver; the others are in the pool, in the channel
to the workers, with the saver or with a worker, and each worker drops at most one, when it exits
(`BoundedPipe.Inv`). So no thread waits for something that no other thread can do (`never_stuck`).
-/

set_option autoImplicit false

namespace Mapache

open Lib

/-- The pipeline, its backend, and whether the coordinator has ended. -/
structure BoundedPipe (κ : Type) (n : Nat) where
  backend : Backend
  pipe : Pipe κ n
  coordinatorEnded : Bool

/-- What happens in a step. -/
inductive BoundedEvent (κ : Type) where
  | pipe (l : PipeEvent κ)
  | coordinator

/-- The contents of the channels fit: the requests, the packers for the workers and the pool. -/
structure Pipe.Fits {κ : Type} {n : Nat} (s : Pipe κ n) : Prop where
  queue : s.queue.length ≤ 2 * n
  full : s.full.length ≤ n
  pool : s.pool.length ≤ n + 2

namespace BoundedPipe

variable {κ : Type} {n : Nat}

/-- What the saver waits for. A `recv` from the pool fails when it is empty and all its senders are
gone, a `send` to the workers fails when all receivers are gone, and the coordinator holds both. -/
def SaverWaits (s : BoundedPipe κ n) (p : Pipe κ n) : Prop :=
  match s.pipe.saver with
  | .dispatching t _ => p.saver.ended = true →
      (s.pipe.packers t).buffer ≠ [] ∧ s.pipe.pool = [] ∧ s.coordinatorEnded = true
  | .sending _ _ => p.saver.ended = s.coordinatorEnded
  | .joining => s.coordinatorEnded = true
  | _ => True

/-- A step of a thread. A `send` to a full channel waits. -/
inductive Step [DecidableEq κ] (env : Env) (s : BoundedPipe κ n) :
    BoundedEvent κ → BoundedPipe κ n → Prop where
  | call {l : PipeEvent κ} {p : Pipe κ n} : Pipe.CallStep env s.pipe l p → p.Fits →
      Step env s (.pipe l) { s with pipe := p }
  | saver {p : Pipe κ n} : Pipe.SaverStep env s.pipe p → s.SaverWaits p → p.Fits →
      Step env s (.pipe .saver) { s with pipe := p }
  | worker {l : PipeEvent κ} {b : Backend} {p : Pipe κ n} :
      Pipe.WorkerStep env s.backend s.pipe l b p → p.Fits →
      Step env s (.pipe l) { s with backend := b, pipe := p }
  | flush {l : PipeEvent κ} {b : Backend} {p : Pipe κ n} :
      Pipe.FlushStep s.backend s.pipe l b p → Step env s (.pipe l) { s with backend := b, pipe := p }
  /-- The workers are joined, and the coordinator drops its ends. -/
  | coordinator : s.coordinatorEnded = false → (∀ w, s.pipe.workers w = .exited) →
      Step env s .coordinator { s with coordinatorEnded := true }

/-- After `init_pack_saver`. -/
def start (b : Backend) (index : MasterIndex) : BoundedPipe κ n := ⟨b, .init index, false⟩

/-- Every thread has ended, and with them the calls and the flush. -/
structure Finished (s : BoundedPipe κ n) : Prop where
  callers : ∀ k, s.pipe.callers k = .idle
  saver : s.pipe.saver.ended = true
  workers : ∀ w, s.pipe.workers w = .exited
  coordinator : s.coordinatorEnded = true
  flush : ∃ ok, s.pipe.flush = .finished ok

/-- A thread goes on, without a new call. -/
def Enabled [DecidableEq κ] (env : Env) (s : BoundedPipe κ n) : Prop :=
  ∃ l s', Step env s l s' ∧ s' ≠ s ∧ ∀ k t data saveId, l ≠ .pipe (.call k t data saveId)

/-- The bounded pipeline takes the steps of the pipeline. -/
theorem Step.refines [DecidableEq κ] {env : Env} {s s' : BoundedPipe κ n} {l : PipeEvent κ}
    (h : Step env s (.pipe l) s') : Pipe.Step env s.backend s.pipe l s'.backend s'.pipe := by
  cases h with
  | call hstep _ => exact .call hstep
  | saver hstep _ _ => exact .saver hstep
  | worker hstep _ => exact .worker hstep
  | flush hstep => exact .flush hstep

/-! ## The packers -/

end BoundedPipe

/-- The packers that a worker holds. -/
def WorkerPhase.held : WorkerPhase → Nat
  | .waiting | .exited => 0
  | _ => 1

theorem WorkerPhase.waiting_or_exited {phase : WorkerPhase} (h : phase.held ≠ 1) :
    phase = .waiting ∨ phase = .exited := by
  cases phase <;> simp_all [WorkerPhase.held]

/-- One for a worker that has ended. -/
def WorkerPhase.gone : WorkerPhase → Nat
  | .exited => 1
  | _ => 0

/-- The packers that the saver holds beside its slots. -/
def SaverPhase.held : SaverPhase → Nat
  | .sending _ _ => 1
  | _ => 0

/-- The packers outside the slots that are not with a worker. -/
def Pipe.idlePackers {κ : Type} {n : Nat} (s : Pipe κ n) : Nat :=
  s.pool.length + s.full.length + s.saver.held

namespace BoundedPipe

variable {κ : Type} {n : Nat} {env : Env} {s s' : BoundedPipe κ n}

/-- What every schedule keeps. -/
structure Inv (s : BoundedPipe κ n) : Prop where
  stopped : s.pipe.flush ≠ .idle → s.pipe.tx = false
  fits : s.pipe.Fits
  coordinator : s.coordinatorEnded = true → ∀ w, s.pipe.workers w = .exited
  atMost : s.pipe.idlePackers + ∑ w, (s.pipe.workers w).held ≤ n
  /-- A worker drops a packer only when it exits. -/
  atLeast : s.pipe.saver.ended = false →
    n ≤ s.pipe.idlePackers + ∑ w, (s.pipe.workers w).held + ∑ w, (s.pipe.workers w).gone

theorem sum_update {α : Type} (f : α → Nat) (g : Fin n → α) (w : Fin n) (x : α) :
    ∑ i, f (Function.update g w x i) + f (g w) = ∑ i, f (g i) + f x := by
  rw [← Finset.add_sum_erase _ _ (Finset.mem_univ w),
    ← Finset.add_sum_erase _ (fun i => f (g i)) (Finset.mem_univ w), Function.update_self]
  have hrest : ∑ i ∈ Finset.univ.erase w, f (Function.update g w x i) =
      ∑ i ∈ Finset.univ.erase w, f (g i) := by
    refine Finset.sum_congr rfl fun i hi => ?_
    rw [Function.update_of_ne (Finset.ne_of_mem_erase hi)]
  omega

theorem Inv.start (b : Backend) (index : MasterIndex) :
    (BoundedPipe.start b index : BoundedPipe κ n).Inv where
  stopped := fun h => absurd rfl h
  fits := ⟨Nat.zero_le _, Nat.zero_le _, by simp [BoundedPipe.start, Pipe.init]⟩
  coordinator := nofun
  atMost := by simp [BoundedPipe.start, Pipe.init, Pipe.idlePackers, SaverPhase.held, WorkerPhase.held]
  atLeast := fun _ => by
    simp [BoundedPipe.start, Pipe.init, Pipe.idlePackers, SaverPhase.held, WorkerPhase.held,
      WorkerPhase.gone]

/-- A worker that has not ended goes on, and puts its packer where it says. -/
theorem Inv.worker_step (h : s.Inv) {w : Fin n} {phase : WorkerPhase} (b : Backend)
    {index : MasterIndex} {pool full : List Packer} {firstErr : Bool}
    (hrunning : s.pipe.workers w ≠ .exited)
    (hfits : ({ s.pipe with
      index := index, pool := pool, full := full, firstErr := firstErr
      workers := Function.update s.pipe.workers w phase } : Pipe κ n).Fits)
    (hmost : pool.length + full.length + phase.held ≤
      s.pipe.pool.length + s.pipe.full.length + (s.pipe.workers w).held)
    (hleast : s.pipe.saver.ended = false →
      s.pipe.pool.length + s.pipe.full.length + (s.pipe.workers w).held ≤
        pool.length + full.length + phase.held + phase.gone) :
    ({ s with
      backend := b
      pipe := { s.pipe with
        index := index, pool := pool, full := full, firstErr := firstErr
        workers := Function.update s.pipe.workers w phase } } : BoundedPipe κ n).Inv := by
  have hheld := sum_update WorkerPhase.held s.pipe.workers w phase
  have hgone := sum_update WorkerPhase.gone s.pipe.workers w phase
  have hzero : (s.pipe.workers w).gone = 0 := by
    cases hphase : s.pipe.workers w <;> first | rfl | exact absurd hphase hrunning
  refine ⟨h.stopped, hfits, fun hended => absurd (h.coordinator hended w) hrunning, ?_,
    fun hopen => ?_⟩
  · have hmost' := h.atMost
    unfold Pipe.idlePackers at hmost' ⊢
    dsimp only
    omega
  · have hleast' := h.atLeast hopen
    have hmoved := hleast hopen
    unfold Pipe.idlePackers at hleast' ⊢
    dsimp only
    omega

theorem Inv.worker (h : s.Inv) {l : PipeEvent κ} {b : Backend} {p : Pipe κ n}
    (hstep : Pipe.WorkerStep env s.backend s.pipe l b p) (hfits : p.Fits) :
    ({ s with backend := b, pipe := p } : BoundedPipe κ n).Inv := by
  cases hstep with
  | recv hphase hfull =>
    refine h.worker_step _ (by simp [hphase]) hfits ?_ fun _ => ?_
    all_goals
      simp only [hphase, hfull, WorkerPhase.held, WorkerPhase.gone, List.length_cons]
      omega
  | closed hphase hfull hclosed | abandon hphase herr =>
    refine h.worker_step _ (by simp [hphase]) hfits ?_ fun _ => ?_
    all_goals
      simp only [hphase, WorkerPhase.held, WorkerPhase.gone]
      omega
  | giveEmptied hphase | giveBack hphase =>
    refine h.worker_step _ (by simp [hphase]) hfits ?_ fun hopen => ?_
    · simp only [hphase, WorkerPhase.held]
      split
      · omega
      · rw [List.length_append, List.length_singleton]
        omega
    · simp only [hphase, hopen, WorkerPhase.held, WorkerPhase.gone, List.length_append,
        List.length_singleton, Bool.false_eq_true, if_false]
      omega
  | recycle hphase hopen =>
    refine h.worker_step _ (by simp [hphase]) hfits ?_ fun _ => ?_
    all_goals
      simp only [hphase, WorkerPhase.held, WorkerPhase.gone, List.length_append,
        List.length_singleton]
      omega
  | recycleClosed hphase hended =>
    refine h.worker_step _ (by simp [hphase]) hfits ?_ fun hopen => ?_
    · simp only [hphase, WorkerPhase.held]
      omega
    · rw [hended] at hopen
      cases hopen
  | register timedOut hphase =>
    refine h.worker_step _ (by simp [hphase]) hfits ?_ fun _ => ?_
    all_goals
      simp only [hphase]
      split <;> simp only [WorkerPhase.held, WorkerPhase.gone] <;> omega
  | finalize _ _ hphase _ _ | finalizeEmpty _ _ hphase _ _ | finalizeFail _ _ hphase _ _
  | upload hphase _ | uploadFail hphase _ | persist _ hphase _ | persistFail hphase _ | mark hphase
  | fail hphase =>
    -- the worker keeps its packer
    refine h.worker_step _ (by simp [hphase]) hfits ?_ fun _ => ?_
    all_goals
      simp only [hphase, WorkerPhase.held, WorkerPhase.gone]
      omega

theorem Inv.saverStep (h : s.Inv) {p : Pipe κ n} (hstep : Pipe.SaverStep env s.pipe p)
    (hfits : p.Fits) : ({ s with pipe := p } : BoundedPipe κ n).Inv := by
  have hmost := h.atMost
  have hleast := h.atLeast
  unfold Pipe.idlePackers at hmost hleast
  cases hstep with
  | skip hsaver _ _ => exact ⟨h.stopped, hfits, h.coordinator, h.atMost, h.atLeast⟩
  | start hsaver | close hsaver _ _ _ =>
    simp only [hsaver, SaverPhase.held, SaverPhase.ended] at hmost hleast
    exact ⟨h.stopped, hfits, h.coordinator, hmost, fun _ => hleast trivial⟩
  | startFail hsaver | addFail hsaver _ _ _ =>
    simp only [hsaver, SaverPhase.held] at hmost
    exact ⟨h.stopped, hfits, h.coordinator, hmost, nofun⟩
  | add hsaver hqueue hslot hadd =>
    simp only [hsaver, SaverPhase.held, SaverPhase.ended] at hmost hleast
    refine ⟨h.stopped, hfits, h.coordinator, ?_, fun _ => ?_⟩
    · unfold Pipe.idlePackers
      dsimp only
      split <;> exact hmost
    · unfold Pipe.idlePackers
      dsimp only
      split <;> exact hleast trivial
  | dispatchEmpty hsaver hempty =>
    rename_i t next
    simp only [hsaver, SaverPhase.held, SaverPhase.ended] at hmost hleast
    have hheld : next.phase.held = 0 := by cases next <;> rfl
    refine ⟨h.stopped, hfits, h.coordinator, ?_, fun _ => ?_⟩
    · unfold Pipe.idlePackers
      dsimp only
      rw [hheld]
      exact hmost
    · unfold Pipe.idlePackers
      dsimp only
      rw [hheld]
      exact hleast trivial
  | take hsaver hbuffer hpool =>
    simp only [hsaver, hpool, SaverPhase.held, SaverPhase.ended, List.length_cons] at hmost hleast
    refine ⟨h.stopped, hfits, h.coordinator, ?_, fun _ => ?_⟩
    · simp only [Pipe.idlePackers, SaverPhase.held]
      omega
    · have hall := hleast trivial
      simp only [Pipe.idlePackers, SaverPhase.held]
      omega
  | send hsaver =>
    rename_i packer next
    simp only [hsaver, SaverPhase.held, SaverPhase.ended] at hmost hleast
    have hheld : next.phase.held = 0 := by cases next <;> rfl
    refine ⟨h.stopped, hfits, h.coordinator, ?_, fun _ => ?_⟩
    · simp only [Pipe.idlePackers, hheld, List.length_append, List.length_singleton]
      omega
    · have hall := hleast trivial
      simp only [Pipe.idlePackers, hheld, List.length_append, List.length_singleton]
      omega
  | disconnect hsaver hexited | join hsaver hexited =>
    refine ⟨h.stopped, hfits, h.coordinator, ?_, nofun⟩
    simp only [Pipe.idlePackers, SaverPhase.held]
    omega

theorem Inv.step [DecidableEq κ] (h : s.Inv) {l : BoundedEvent κ} (hstep : Step env s l s') :
    s'.Inv := by
  cases hstep with
  | call hstep hfits =>
    cases hstep <;> exact ⟨h.stopped, hfits, h.coordinator, h.atMost, h.atLeast⟩
  | saver hstep _ hfits => exact h.saverStep hstep hfits
  | worker hstep hfits => exact h.worker hstep hfits
  | flush hstep =>
    obtain ⟨hqueue, hfull, hpool⟩ := h.fits
    cases hstep with
    | take hidle => exact ⟨fun _ => rfl, ⟨hqueue, hfull, hpool⟩, h.coordinator, h.atMost, h.atLeast⟩
    | joinFail hflush _ | joinOk hflush _ | persist _ hflush _ | persistFail hflush _ | mark hflush
    | done hflush =>
      have hstopped := h.stopped (by simp [hflush])
      exact ⟨fun _ => hstopped, ⟨hqueue, hfull, hpool⟩, h.coordinator, h.atMost, h.atLeast⟩
  | coordinator _ hexited => exact ⟨h.stopped, h.fits, fun _ => hexited, h.atMost, h.atLeast⟩

/-! ## Who can go on -/

section Progress

variable [DecidableEq κ]

omit [DecidableEq κ] in
theorem Inv.pool_le (h : s.Inv) : s.pipe.pool.length ≤ n := by
  have hmost := h.atMost
  unfold Pipe.idlePackers at hmost
  omega

theorem enabled_of_worker {l : PipeEvent κ} {b : Backend} {p : Pipe κ n} {w : Fin n}
    (hstep : Pipe.WorkerStep env s.backend s.pipe l b p) (hfits : p.Fits)
    (hmoved : p.workers w ≠ s.pipe.workers w) (hcall : ∀ k t data saveId, l ≠ .call k t data saveId) :
    s.Enabled env := by
  refine ⟨_, _, .worker hstep hfits, fun heq => hmoved ?_, fun k t data saveId hl => ?_⟩
  · exact congrArg (fun s : BoundedPipe κ n => s.pipe.workers w) heq
  · cases hl
    exact hcall k t data saveId rfl

theorem enabled_of_saver {p : Pipe κ n} (hstep : Pipe.SaverStep env s.pipe p)
    (hwaits : s.SaverWaits p) (hfits : p.Fits)
    (hmoved : p.saver ≠ s.pipe.saver ∨ p.queue ≠ s.pipe.queue) : s.Enabled env := by
  refine ⟨_, _, .saver hstep hwaits hfits, fun heq => ?_, nofun⟩
  rcases hmoved with hsaver | hqueue
  · exact hsaver (congrArg (fun s : BoundedPipe κ n => s.pipe.saver) heq)
  · exact hqueue (congrArg (fun s : BoundedPipe κ n => s.pipe.queue) heq)

/-- A worker with a packer goes on: what it calls returns, and there is room in the pool. -/
theorem Inv.enabled_busy (h : s.Inv) {w : Fin n} (hbusy : (s.pipe.workers w).held = 1) :
    s.Enabled env := by
  obtain ⟨hqueue, hfull, hpool⟩ := h.fits
  have hback : ∀ p : Packer,
      (if s.pipe.saver.ended then s.pipe.pool else s.pipe.pool ++ [p]).length ≤ n + 2 := by
    intro p
    have hle := h.pool_le
    split
    · omega
    · rw [List.length_append, List.length_singleton]
      omega
  cases hphase : s.pipe.workers w with
  | waiting => simp [hphase, WorkerPhase.held] at hbusy
  | exited => simp [hphase, WorkerPhase.held] at hbusy
  | got packer =>
    cases herr : s.pipe.firstErr with
    | true =>
      refine enabled_of_worker (w := w) (.abandon hphase herr) ⟨hqueue, hfull, hpool⟩ ?_ nofun
      simp [hphase]
    | false =>
      let rand : Nat → PackedBlobDescriptor := fun _ => ⟨0, .padding, 0, 0, 0⟩
      cases hpack : packer.finalizeAndExtract env.storage env.fromContent sampleNonce rand with
      | none =>
        refine enabled_of_worker (w := w) (.finalizeFail sampleNonce rand hphase herr hpack)
          ⟨hqueue, hfull, hpool⟩ ?_ nofun
        simp [hphase]
      | some result =>
        cases result with
        | none =>
          refine enabled_of_worker (w := w) (.finalizeEmpty sampleNonce rand hphase herr hpack)
            ⟨hqueue, hfull, hpool⟩ ?_ nofun
          simp [hphase]
        | some pack =>
          refine enabled_of_worker (w := w) (.finalize sampleNonce rand hphase herr hpack)
            ⟨hqueue, hfull, hpool⟩ ?_ nofun
          simp [hphase]
  | emptied packer =>
    refine enabled_of_worker (w := w) (.giveEmptied hphase) ⟨hqueue, hfull, hback packer⟩ ?_ nofun
    simp [hphase]
  | uploading pack =>
    refine enabled_of_worker (w := w) (.uploadFail hphase (.inl rfl)) ⟨hqueue, hfull, hpool⟩ ?_ nofun
    simp [hphase]
  | registering pack =>
    refine enabled_of_worker (w := w) (.register false hphase) ⟨hqueue, hfull, hpool⟩ ?_ nofun
    dsimp only
    rw [Function.update_self, hphase]
    split <;> nofun
  | persisting ix =>
    have hwrite : Pipe.FailedWrite s.backend 0 (s.backend.saveIndex 0 ix.toFile) s.backend := .inl rfl
    refine enabled_of_worker (w := w) (.persistFail hphase hwrite) ⟨hqueue, hfull, hpool⟩ ?_ nofun
    simp [hphase]
  | marking ix fid =>
    refine enabled_of_worker (w := w) (.mark hphase) ⟨hqueue, hfull, hpool⟩ ?_ nofun
    simp [hphase]
  | recycling packer =>
    cases hended : s.pipe.saver.ended with
    | true =>
      refine enabled_of_worker (w := w) (.recycleClosed hphase hended) ⟨hqueue, hfull, hpool⟩ ?_ nofun
      simp [hphase]
    | false =>
      have hroom := hback packer
      rw [hended] at hroom
      refine enabled_of_worker (w := w) (.recycle hphase hended) ⟨hqueue, hfull, hroom⟩ ?_ nofun
      simp [hphase]
  | failing packer =>
    refine enabled_of_worker (w := w) (.fail hphase) ⟨hqueue, hfull, hpool⟩ ?_ nofun
    simp [hphase]
  | returning packer =>
    refine enabled_of_worker (w := w) (.giveBack hphase) ⟨hqueue, hfull, hback packer⟩ ?_ nofun
    simp [hphase]

/-- Where no worker can go on, all have exited, or all packers that are left to them are too. -/
theorem Inv.workers_cases (h : s.Inv) (env : Env) : s.Enabled env ∨ (∀ w, s.pipe.workers w = .exited) ∨
    (s.pipe.full = [] ∧ s.pipe.saver.closed = false ∧
      ∀ w, s.pipe.workers w = .waiting ∨ s.pipe.workers w = .exited) := by
  obtain ⟨hqueue, hfullLe, hpool⟩ := h.fits
  by_cases hbusy : ∃ w, (s.pipe.workers w).held = 1
  · obtain ⟨w, hw⟩ := hbusy
    exact .inl (h.enabled_busy hw)
  have hidle : ∀ w, s.pipe.workers w = .waiting ∨ s.pipe.workers w = .exited :=
    fun w => WorkerPhase.waiting_or_exited (not_exists.mp hbusy w)
  by_cases hwaiting : ∃ w, s.pipe.workers w = .waiting
  · obtain ⟨w, hw⟩ := hwaiting
    cases hfull : s.pipe.full with
    | cons packer full =>
      have hle : full.length ≤ n := by
        rw [hfull, List.length_cons] at hfullLe
        omega
      refine .inl (enabled_of_worker (w := w) (.recv hw hfull) ⟨hqueue, hle, hpool⟩ ?_ nofun)
      simp [hw]
    | nil =>
      cases hclosed : s.pipe.saver.closed with
      | true =>
        refine .inl (enabled_of_worker (w := w) (.closed hw hfull hclosed)
          ⟨hqueue, hfullLe, hpool⟩ ?_ nofun)
        simp [hw]
      | false => exact .inr (.inr ⟨rfl, rfl, hidle⟩)
  · exact .inr (.inl fun w => (hidle w).resolve_left (not_exists.mp hwaiting w))

theorem enabled_or_ended (env : Env) (hexited : ∀ w, s.pipe.workers w = .exited) :
    s.Enabled env ∨ s.coordinatorEnded = true := by
  cases hended : s.coordinatorEnded with
  | true => exact .inr rfl
  | false =>
    refine .inl ⟨_, _, .coordinator hended hexited, fun heq => ?_, nofun⟩
    have hsame := congrArg BoundedPipe.coordinatorEnded heq
    rw [hended] at hsame
    cases hsame

omit [DecidableEq κ] in
/-- When as many workers have ended as there are, all have. -/
theorem exited_of_le_gone (h : n ≤ ∑ w, (s.pipe.workers w).gone) (w : Fin n) :
    s.pipe.workers w = .exited := by
  by_contra hne
  have hzero : (s.pipe.workers w).gone = 0 := by
    cases hphase : s.pipe.workers w <;> first | rfl | exact absurd hphase hne
  have hlt : ∑ w, (s.pipe.workers w).gone < ∑ _w : Fin n, 1 := by
    refine Finset.sum_lt_sum (fun i _ => ?_) ⟨w, Finset.mem_univ w, ?_⟩
    · cases s.pipe.workers i <;> simp [WorkerPhase.gone]
    · rw [hzero]
      exact Nat.one_pos
  rw [Finset.sum_const, Finset.card_univ, Fintype.card_fin, smul_eq_mul, mul_one] at hlt
  omega

omit [DecidableEq κ] in
/-- **The pool does not run dry for good.** While the saver waits for an empty packer, a worker
holds one, or one waits for a worker, or all workers have exited and the wait ends with an error. -/
theorem Inv.pool_cases (h : s.Inv) {t : Slot} {next : SaverNext}
    (hsaver : s.pipe.saver = .dispatching t next) (hpool : s.pipe.pool = []) :
    (∃ w, (s.pipe.workers w).held = 1) ∨
      (s.pipe.full ≠ [] ∧ ∃ w, s.pipe.workers w = .waiting) ∨
      ∀ w, s.pipe.workers w = .exited := by
  by_cases hbusy : ∃ w, (s.pipe.workers w).held = 1
  · exact .inl hbusy
  have hidle : ∀ w, s.pipe.workers w = .waiting ∨ s.pipe.workers w = .exited :=
    fun w => WorkerPhase.waiting_or_exited (not_exists.mp hbusy w)
  by_cases hfull : s.pipe.full = []
  · have hleast := h.atLeast (by rw [hsaver]; rfl)
    have hheld : ∑ w, (s.pipe.workers w).held = 0 := Finset.sum_eq_zero fun w _ => by
      rcases hidle w with hphase | hphase <;> rw [hphase] <;> rfl
    unfold Pipe.idlePackers at hleast
    rw [hpool, hfull, hsaver, hheld] at hleast
    refine .inr (.inr (exited_of_le_gone (hleast.trans (Nat.le_of_eq ?_))))
    simp [SaverPhase.held]
  · by_cases hwaiting : ∃ w, s.pipe.workers w = .waiting
    · exact .inr (.inl ⟨hfull, hwaiting⟩)
    · exact .inr (.inr fun w => (hidle w).resolve_left (not_exists.mp hwaiting w))

/-- A caller goes on, unless it waits for room in the queue. -/
theorem Inv.enabled_caller (h : s.Inv) (htx : s.pipe.tx = false) {k : κ}
    (hk : s.pipe.callers k ≠ .idle)
    (hroom : s.pipe.saver.ended = true ∨ s.pipe.queue.length < 2 * n) : s.Enabled env := by
  obtain ⟨hqueue, hfull, hpool⟩ := h.fits
  have hmove : ∀ {p : Pipe κ n}, Pipe.CallStep env s.pipe (.caller k) p → p.Fits →
      p.callers k ≠ s.pipe.callers k → s.Enabled env := by
    intro p hstep hfits hmoved
    refine ⟨_, _, .call hstep hfits,
      fun heq => hmoved (congrArg (fun s : BoundedPipe κ n => s.pipe.callers k) heq), ?_⟩
    intro k' t data saveId hlabel
    cases hlabel
  -- the lookups of `contains` and `add_pending_blob`
  have hlook : (s.pipe.callers k).look env.toIndexEnv s.pipe.index ≠ s.pipe.callers k →
      s.Enabled env := by
    intro hne
    refine hmove .look ⟨hqueue, hfull, hpool⟩ ?_
    dsimp only
    rwa [Function.update_self]
  cases hphase : s.pipe.callers k with
  | idle => exact absurd hphase hk
  | checking | lookup | noting | notingIndex =>
    refine hlook ?_
    rw [hphase, CallPhase.look]
    split <;> intro hmoved <;> cases hmoved
  | cloning c =>
    refine hmove (.reject hphase (.inr htx)) ⟨hqueue, hfull, hpool⟩ ?_
    simp [hphase]
  | sending c encoded =>
    cases hended : s.pipe.saver.ended with
    | true =>
      refine hmove (.sendFail hphase hended) ⟨hqueue, hfull, hpool⟩ ?_
      simp [hphase]
    | false =>
      have hlt := hroom.resolve_left (by rw [hended]; exact Bool.false_ne_true)
      refine hmove (.send hphase hended) ⟨?_, hfull, hpool⟩ ?_
      · rw [List.length_append]
        exact hlt
      · simp [hphase]
  | inserting c =>
    refine hmove (.insert hphase) ⟨hqueue, hfull, hpool⟩ ?_
    simp [hphase]
  | returned c =>
    refine hmove (.ret hphase) ⟨hqueue, hfull, hpool⟩ ?_
    simp [hphase]

theorem SaverNext.ended_phase (next : SaverNext) : next.phase.ended = false := by
  cases next <;> rfl

/-- The saver receives, or the callers that still hold a sender go on. -/
theorem Inv.enabled_receiving (h : s.Inv) (hn : 0 < n) (htx : s.pipe.tx = false)
    (hsaver : s.pipe.saver = .receiving) : s.Enabled env := by
  obtain ⟨hqueueLe, hfull, hpool⟩ := h.fits
  have hwaits : ∀ p, s.SaverWaits p := by
    intro p
    unfold SaverWaits
    rw [hsaver]
    trivial
  cases hqueue : s.pipe.queue with
  | cons r queue =>
    have hle : queue.length ≤ 2 * n := by
      rw [hqueue, List.length_cons] at hqueueLe
      omega
    have hshorter : queue ≠ r :: queue := (List.cons_ne_self r queue).symm
    cases hslot : r.blobType.slot with
    | none =>
      exact enabled_of_saver (.skip hsaver hqueue hslot) (hwaits _) ⟨hle, hfull, hpool⟩
        (.inr (by rwa [hqueue]))
    | some t =>
      cases hadd : (s.pipe.packers t).addBlob r.id r.blobType r.data r.rawLength with
      | none =>
        exact enabled_of_saver (.addFail hsaver hqueue hslot hadd) (hwaits _) ⟨hle, hfull, hpool⟩
          (.inr (by rwa [hqueue]))
      | some packer =>
        exact enabled_of_saver (.add hsaver hqueue hslot hadd) (hwaits _) ⟨hle, hfull, hpool⟩
          (.inr (by rwa [hqueue]))
  | nil =>
    by_cases hsenders : ∀ k, (s.pipe.callers k).holdsTx = false
    · refine enabled_of_saver (.close hsaver hqueue htx hsenders) (hwaits _)
        ⟨hqueueLe, hfull, hpool⟩ (.inl ?_)
      rw [hsaver]
      nofun
    · obtain ⟨k, hk⟩ := not_forall.mp hsenders
      refine h.enabled_caller (k := k) htx (fun hidle => hk (by rw [hidle]; rfl)) (.inr ?_)
      rw [hqueue, List.length_nil]
      omega

/-- The saver goes on with a dispatch, or someone does that it waits for. -/
theorem Inv.enabled_dispatching (h : s.Inv) {t : Slot} {next : SaverNext}
    (hsaver : s.pipe.saver = .dispatching t next) : s.Enabled env := by
  obtain ⟨hqueue, hfull, hpoolLe⟩ := h.fits
  by_cases hbuffer : (s.pipe.packers t).buffer = []
  · refine enabled_of_saver (.dispatchEmpty hsaver hbuffer) ?_ ⟨hqueue, hfull, hpoolLe⟩ (.inl ?_)
    · unfold SaverWaits
      rw [hsaver]
      intro hended
      rw [SaverNext.ended_phase] at hended
      cases hended
    · rw [hsaver]
      cases next <;> nofun
  cases hpool : s.pipe.pool with
  | cons packer pool =>
    have hle : pool.length ≤ n + 2 := by
      rw [hpool, List.length_cons] at hpoolLe
      omega
    refine enabled_of_saver (.take hsaver hbuffer hpool) ?_ ⟨hqueue, hfull, hle⟩ (.inl ?_)
    · unfold SaverWaits
      rw [hsaver]
      nofun
    · rw [hsaver]
      nofun
  | nil =>
    rcases h.pool_cases hsaver hpool with ⟨w, hw⟩ | ⟨hne, w, hw⟩ | hexited
    · exact h.enabled_busy hw
    · rcases h.workers_cases env with henabled | hexited | ⟨hnil, -, -⟩
      · exact henabled
      · cases hw.symm.trans (hexited w)
      · exact absurd hnil hne
    · rcases enabled_or_ended env hexited with henabled | hended
      · exact henabled
      · have hdispatching : s.pipe.saver.isDispatching = true := by
          rw [hsaver]
          rfl
        refine enabled_of_saver (.disconnect hdispatching hexited) ?_ ⟨hqueue, hfull, hpoolLe⟩
          (.inl ?_)
        · unfold SaverWaits
          rw [hsaver]
          exact fun _ => ⟨hbuffer, hpool, hended⟩
        · rw [hsaver]
          nofun

theorem Inv.enabled_sending (h : s.Inv) {packer : Packer} {next : SaverNext}
    (hsaver : s.pipe.saver = .sending packer next) : s.Enabled env := by
  obtain ⟨hqueue, hfull, hpool⟩ := h.fits
  cases hended : s.coordinatorEnded with
  | true =>
    have hdispatching : s.pipe.saver.isDispatching = true := by
      rw [hsaver]
      rfl
    refine enabled_of_saver (.disconnect hdispatching (h.coordinator hended)) ?_
      ⟨hqueue, hfull, hpool⟩ (.inl ?_)
    · unfold SaverWaits
      rw [hsaver, hended]
      rfl
    · rw [hsaver]
      nofun
  | false =>
    -- the saver holds one of the `n` packers, so that there is room for it
    have hroom : s.pipe.full.length + 1 ≤ n := by
      have hmost := h.atMost
      unfold Pipe.idlePackers at hmost
      rw [hsaver, SaverPhase.held] at hmost
      omega
    refine enabled_of_saver (.send hsaver) ?_ ⟨hqueue, ?_, hpool⟩ (.inl ?_)
    · unfold SaverWaits
      rw [hsaver, hended]
      exact SaverNext.ended_phase next
    · rw [List.length_append]
      exact hroom
    · rw [hsaver]
      cases next <;> nofun

theorem Inv.enabled_joining (h : s.Inv) (hsaver : s.pipe.saver = .joining) : s.Enabled env := by
  obtain ⟨hqueue, hfull, hpool⟩ := h.fits
  rcases h.workers_cases env with henabled | hexited | ⟨-, hopen, -⟩
  · exact henabled
  · rcases enabled_or_ended env hexited with henabled | hended
    · exact henabled
    · refine enabled_of_saver (.join hsaver hexited) ?_ ⟨hqueue, hfull, hpool⟩ (.inl ?_)
      · unfold SaverWaits
        rw [hsaver]
        exact hended
      · rw [hsaver]
        nofun
  · rw [hsaver] at hopen
    cases hopen

/-- After the saver has ended, the workers, the coordinator, the callers and the flush end. -/
theorem Inv.enabled_ended (h : s.Inv) (hflush : s.pipe.flush ≠ .idle) {ok : Bool}
    (hsaver : s.pipe.saver = .finished ok) (hunfinished : ¬ s.Finished) : s.Enabled env := by
  have htx := h.stopped hflush
  have hended : s.pipe.saver.ended = true := by
    rw [hsaver]
    rfl
  have hmove : ∀ {l : PipeEvent κ} {b : Backend} {p : Pipe κ n},
      Pipe.FlushStep s.backend s.pipe l b p → p.flush ≠ s.pipe.flush →
      (∀ k t data saveId, l ≠ .call k t data saveId) → s.Enabled env := by
    intro l b p hstep hmoved hcall
    refine ⟨_, _, .flush hstep, fun heq => hmoved ?_, fun k t data saveId hl => ?_⟩
    · exact congrArg (fun s : BoundedPipe κ n => s.pipe.flush) heq
    · cases hl
      exact hcall k t data saveId rfl
  rcases h.workers_cases env with henabled | hexited | ⟨-, hopen, -⟩
  · exact henabled
  · rcases enabled_or_ended env hexited with henabled | hcoordinator
    · exact henabled
    · by_cases hcallers : ∀ k, s.pipe.callers k = .idle
      · cases hphase : s.pipe.flush with
        | idle => exact absurd hphase hflush
        | joining =>
          cases ok with
          | true =>
            refine hmove (.joinOk hphase hsaver) ?_ nofun
            simp [hphase]
          | false =>
            refine hmove (.joinFail hphase hsaver) ?_ nofun
            simp [hphase]
        | persisting todo =>
          cases todo with
          | nil =>
            refine hmove (.done hphase) ?_ nofun
            simp [hphase]
          | cons ix todo =>
            have hwrite : Pipe.FailedWrite s.backend 0 (s.backend.saveIndex 0 ix.toFile) s.backend :=
              .inl rfl
            refine hmove (.persistFail hphase hwrite) ?_ nofun
            simp [hphase]
        | marking ix fid todo =>
          refine hmove (.mark hphase) ?_ nofun
          simp [hphase]
        | finished ok' =>
          exact absurd ⟨hcallers, hended, hexited, hcoordinator, ok', hphase⟩ hunfinished
      · obtain ⟨k, hk⟩ := not_forall.mp hcallers
        exact h.enabled_caller htx hk (.inl hended)
  · rw [hsaver] at hopen
    cases hopen

theorem Inv.enabled (h : s.Inv) (hn : 0 < n) (hflush : s.pipe.flush ≠ .idle)
    (hunfinished : ¬ s.Finished) : s.Enabled env := by
  cases hsaver : s.pipe.saver with
  | starting =>
    obtain ⟨hqueue, hfull, hpool⟩ := h.fits
    refine enabled_of_saver (.start hsaver) ?_ ⟨hqueue, hfull, hpool⟩ (.inl ?_)
    · unfold SaverWaits
      rw [hsaver]
      trivial
    · rw [hsaver]
      nofun
  | receiving => exact h.enabled_receiving hn (h.stopped hflush) hsaver
  | dispatching t next => exact h.enabled_dispatching hsaver
  | sending packer next => exact h.enabled_sending hsaver
  | joining => exact h.enabled_joining hsaver
  | finished ok => exact h.enabled_ended hflush hsaver hunfinished

/-- **The pack pipeline never gets stuck.** Once the flush was requested, some thread goes on until
all have ended, on every schedule and with any failures; and while the saver waits for an empty
packer there is a worker that can return one, unless all workers have exited. -/
theorem never_stuck {b : Backend} {index : MasterIndex} {ls : List (BoundedEvent κ)} (hn : 0 < n)
    (hrun : Run (Step env) (BoundedPipe.start b index : BoundedPipe κ n) ls s) :
    (s.pipe.flush ≠ .idle → ¬ s.Finished → s.Enabled env) ∧
      ∀ t next, s.pipe.saver = .dispatching t next → s.pipe.pool = [] →
        (∃ w, (s.pipe.workers w).held = 1) ∨
          (s.pipe.full ≠ [] ∧ ∃ w, s.pipe.workers w = .waiting) ∨
          ∀ w, s.pipe.workers w = .exited := by
  have hinv : s.Inv := hrun.invariant (fun _ _ _ h hstep => h.step hstep) (.start b index)
  exact ⟨hinv.enabled hn, fun t next => hinv.pool_cases⟩

end Progress

end BoundedPipe

section Sample

open BoundedPipe

/-- The parameters of the run below: a blob of one byte fills a packer. -/
def oneBlobEnv : Env := { sampleEnv with maxPackerSize := 2 }

/-- One worker and three packers. The packer of the first blob goes through the worker and comes back,
the worker holds the one of the second blob, and the third blob has filled its packer when the flush is
requested: the saver waits for an empty one. -/
theorem exists_run_waiting : ∃ ls s,
    Run (Step oneBlobEnv) (start emptyBackend .new : BoundedPipe Unit 1) ls s ∧
    s.pipe.flush = .joining ∧ s.pipe.saver = .dispatching .data .receive ∧ s.pipe.pool = [] ∧
      s.pipe.full = [] ∧ s.pipe.workers 0 ≠ .exited ∧ s.pipe.saved.map Blob.id = [5, 6] := by
  have h₀ : Run (Step oneBlobEnv) (start emptyBackend .new : BoundedPipe Unit 1) [] _ := .nil
  have h₁ := h₀.snoc (.saver (.start rfl) trivial ⟨by decide, by decide, by decide⟩)
  -- the packer of the first blob comes back from the worker
  have h₂ := h₁.snoc
    (.call (.call (k := ()) .data [5] .calculateID rfl) ⟨by decide, by decide, by decide⟩)
  have h₃ := h₂.snoc (.call (.look (k := ())) ⟨by decide, by decide, by decide⟩)
  have h₄ := h₃.snoc (.call (.look (k := ())) ⟨by decide, by decide, by decide⟩)
  have h₅ := h₄.snoc
    (.call (.clone (k := ()) sampleNonce rfl rfl rfl) ⟨by decide, by decide, by decide⟩)
  have h₆ := h₅.snoc (.call (.send (k := ()) rfl rfl) ⟨by decide, by decide, by decide⟩)
  have h₇ := h₆.snoc (.saver (.add rfl rfl rfl rfl) trivial ⟨by decide, by decide, by decide⟩)
  have h₈ := h₇.snoc
    (.saver (.take rfl (by decide) rfl) (fun h => by cases h) ⟨by decide, by decide, by decide⟩)
  have h₉ := h₈.snoc (.saver (.send rfl) (rfl) ⟨by decide, by decide, by decide⟩)
  have h₁₀ := h₉.snoc (.call (.look (k := ())) ⟨by decide, by decide, by decide⟩)
  have h₁₁ := h₁₀.snoc (.call (.look (k := ())) ⟨by decide, by decide, by decide⟩)
  have h₁₂ := h₁₁.snoc (.call (.insert (k := ()) rfl) ⟨by decide, by decide, by decide⟩)
  have h₁₃ := h₁₂.snoc (.call (.ret (k := ()) rfl) ⟨by decide, by decide, by decide⟩)
  have h₁₄ := h₁₃.snoc (.worker (.recv (w := 0) rfl rfl) ⟨by decide, by decide, by decide⟩)
  have h₁₅ := h₁₄.snoc
    (.worker (.finalize (w := 0) sampleNonce samplePadding rfl rfl rfl) ⟨by decide, by decide, by decide⟩)
  have h₁₆ := h₁₅.snoc
    (.worker (.upload (w := 0) rfl ⟨rfl, rfl, by decide⟩) ⟨by decide, by decide, by decide⟩)
  have h₁₇ := h₁₆.snoc (.worker (.register (w := 0) false rfl) ⟨by decide, by decide, by decide⟩)
  have h₁₈ := h₁₇.snoc (.worker (.recycle (w := 0) rfl rfl) ⟨by decide, by decide, by decide⟩)
  -- the worker has the packer of the second blob
  have h₁₉ := h₁₈.snoc
    (.call (.call (k := ()) .data [6] .calculateID rfl) ⟨by decide, by decide, by decide⟩)
  have h₂₀ := h₁₉.snoc (.call (.look (k := ())) ⟨by decide, by decide, by decide⟩)
  have h₂₁ := h₂₀.snoc (.call (.look (k := ())) ⟨by decide, by decide, by decide⟩)
  have h₂₂ := h₂₁.snoc
    (.call (.clone (k := ()) sampleNonce rfl rfl rfl) ⟨by decide, by decide, by decide⟩)
  have h₂₃ := h₂₂.snoc (.call (.send (k := ()) rfl rfl) ⟨by decide, by decide, by decide⟩)
  have h₂₄ := h₂₃.snoc (.saver (.add rfl rfl rfl rfl) trivial ⟨by decide, by decide, by decide⟩)
  have h₂₅ := h₂₄.snoc
    (.saver (.take rfl (by decide) rfl) (fun h => by cases h) ⟨by decide, by decide, by decide⟩)
  have h₂₆ := h₂₅.snoc (.saver (.send rfl) (rfl) ⟨by decide, by decide, by decide⟩)
  have h₂₇ := h₂₆.snoc (.call (.look (k := ())) ⟨by decide, by decide, by decide⟩)
  have h₂₈ := h₂₇.snoc (.call (.look (k := ())) ⟨by decide, by decide, by decide⟩)
  have h₂₉ := h₂₈.snoc (.call (.insert (k := ()) rfl) ⟨by decide, by decide, by decide⟩)
  have h₃₀ := h₂₉.snoc (.call (.ret (k := ()) rfl) ⟨by decide, by decide, by decide⟩)
  have h₃₁ := h₃₀.snoc (.worker (.recv (w := 0) rfl rfl) ⟨by decide, by decide, by decide⟩)
  -- the third blob fills a packer, and the flush is requested
  have h₃₂ := h₃₁.snoc
    (.call (.call (k := ()) .data [7] .calculateID rfl) ⟨by decide, by decide, by decide⟩)
  have h₃₃ := h₃₂.snoc (.call (.look (k := ())) ⟨by decide, by decide, by decide⟩)
  have h₃₄ := h₃₃.snoc (.call (.look (k := ())) ⟨by decide, by decide, by decide⟩)
  have h₃₅ := h₃₄.snoc
    (.call (.clone (k := ()) sampleNonce rfl rfl rfl) ⟨by decide, by decide, by decide⟩)
  have h₃₆ := h₃₅.snoc (.call (.send (k := ()) rfl rfl) ⟨by decide, by decide, by decide⟩)
  have h₃₇ := h₃₆.snoc (.saver (.add rfl rfl rfl rfl) trivial ⟨by decide, by decide, by decide⟩)
  have h₃₈ := h₃₇.snoc (.flush (.take rfl))
  exact ⟨_, _, h₃₈, rfl, rfl, rfl, rfl, (fun h => by cases h), rfl⟩

/-- The saver waits for an empty packer, which the worker holds, and a thread can go on. -/
theorem never_stuck_flush : ∃ s : BoundedPipe Unit 1, s.pipe.flush ≠ .idle ∧
    s.pipe.saver = .dispatching .data .receive ∧ s.pipe.pool = [] ∧
    s.pipe.saved.map Blob.id = [5, 6] ∧ s.Enabled oneBlobEnv ∧
    ∃ w, (s.pipe.workers w).held = 1 := by
  obtain ⟨ls, s, hrun, hflush, hsaver, hpool, hfull, hworker, hsaved⟩ := exists_run_waiting
  obtain ⟨hgoes, hwaits⟩ := never_stuck Nat.one_pos hrun
  have hrequested : s.pipe.flush ≠ .idle := by
    rw [hflush]
    exact fun h => by cases h
  have hunfinished : ¬ s.Finished := by
    intro h
    have hended := h.saver
    rw [hsaver] at hended
    cases hended
  refine ⟨s, hrequested, hsaver, hpool, hsaved, hgoes hrequested hunfinished, ?_⟩
  rcases hwaits _ _ hsaver hpool with hheld | ⟨hne, -⟩ | hexited
  · exact hheld
  · exact absurd hfull hne
  · exact absurd (hexited 0) hworker

end Sample

end Mapache
