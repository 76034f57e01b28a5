import Mathlib.Logic.Function.Basic
import Mapache.Lib.Run
import Mapache.Lock.Basic

/-!
# The lock handle: refreshing and releasing

A `LockHandle` of `repository/lock.rs` is shared by its clones, by one refresh task and by the tasks
that release the lock: the callers of `unlock()` and the tasks that `trigger_unlock()` spawns, here
indexed by `τ`. `LockHandle.Step` has one constructor for each point at which the scheduler can
switch between them. The refresh task sleeps, loads `alive_flag`, stamps the lock and writes its
file; a release takes `unlock_mutex`, swaps `alive_flag` and, when it was the one to clear it,
deletes the file.

The write of a refresh is not under `unlock_mutex`. `refresh_resurrects_released_lock` is a run in
which the delete falls between the check of the flag and the write, and the file of a released lock
comes back; `released_lock_stays_released` shows that this is the only way: in the runs where no
delete falls there, the file is gone for good once a release has returned.
-/

set_option autoImplicit false

namespace Mapache

open Lib

variable {τ : Type}

/-- Where the refresh task of a handle stands. -/
inductive RefreshPhase where
  /-- In the sleep of `LOCK_REFRESH_PERIOD`. -/
  | sleeping
  /-- `alive_flag` was loaded as true. -/
  | checked
  /-- The in-memory lock carries its new timestamp, the file is not yet written. -/
  | stamped
  /-- The loop was left, or never started. -/
  | stopped
  deriving DecidableEq

/-- Where a release of the lock stands. -/
inductive ReleasePhase where
  | idle
  /-- Waiting for `unlock_mutex`. -/
  | waiting
  /-- Holding `unlock_mutex`, before the swap of `alive_flag`. -/
  | locked
  /-- It cleared the flag and is about to delete the lock file. -/
  | deleting
  /-- Its work is done, `unlock_mutex` is still held. -/
  | deleted
  | returned
  deriving DecidableEq

/-- The state that the clones of one `LockHandle` share, with the tasks that work on it. -/
structure LockHandle (τ : Type) where
  lock : Lock
  aliveFlag : Bool
  alive : Bool
  unlockMutex : Option τ
  refresh : RefreshPhase
  release : τ → ReleasePhase

/-- `LockHandle::new`: the refresh task runs only for a lock that is `alive`. -/
def LockHandle.new (lock : Lock) (alive : Bool) : LockHandle τ where
  lock := lock
  aliveFlag := true
  alive := alive
  unlockMutex := none
  refresh := if alive then .sleeping else .stopped
  release := fun _ => .idle

/-- The handle after release `t` moved to phase `p`. -/
def LockHandle.setRelease [DecidableEq τ] (h : LockHandle τ) (t : τ) (p : ReleasePhase) :
    LockHandle τ :=
  { h with release := Function.update h.release t p }

section SetRelease

variable [DecidableEq τ] (h : LockHandle τ) (t u : τ) (p : ReleasePhase)

@[simp, grind =] theorem LockHandle.setRelease_lock : (h.setRelease t p).lock = h.lock := rfl
@[simp, grind =] theorem LockHandle.setRelease_aliveFlag :
    (h.setRelease t p).aliveFlag = h.aliveFlag := rfl
@[simp, grind =] theorem LockHandle.setRelease_alive : (h.setRelease t p).alive = h.alive := rfl
@[simp, grind =] theorem LockHandle.setRelease_unlockMutex :
    (h.setRelease t p).unlockMutex = h.unlockMutex := rfl
@[simp, grind =] theorem LockHandle.setRelease_refresh : (h.setRelease t p).refresh = h.refresh := rfl
@[simp, grind =] theorem LockHandle.setRelease_release :
    (h.setRelease t p).release u = if u = t then p else h.release u := by
  simp [LockHandle.setRelease, Function.update_apply]

end SetRelease

/-- What the tasks of a handle do, one event for each step between two points where they can be
interleaved. -/
inductive HandleEvent (τ : Type) where
  | wake
  | stamp (now : Int)
  | save
  | saveFail
  | call (t : τ)
  | trigger (t : τ)
  | acquire (t : τ)
  | swap (t : τ)
  | delete (t : τ)
  | deleteFail (t : τ)
  | finish (t : τ)
  deriving DecidableEq

/-- One step of the tasks of a handle. -/
inductive LockHandle.Step [DecidableEq τ] : LockHandle τ → HandleEvent τ → LockHandle τ → Prop where
  | wakeAlive {h : LockHandle τ} : h.refresh = .sleeping → h.aliveFlag = true →
      Step h .wake { h with refresh := .checked }
  | wakeReleased {h : LockHandle τ} : h.refresh = .sleeping → h.aliveFlag = false →
      Step h .wake { h with refresh := .stopped }
  | stamp {h : LockHandle τ} (now : Int) : h.refresh = .checked →
      Step h (.stamp now) { h with lock := h.lock.refresh now, refresh := .stamped }
  | save {h : LockHandle τ} : h.refresh = .stamped → Step h .save { h with refresh := .sleeping }
  | saveFail {h : LockHandle τ} : h.refresh = .stamped →
      Step h .saveFail { h with refresh := .sleeping }
  /-- `unlock()` is called. -/
  | call {h : LockHandle τ} (t : τ) : h.release t = .idle → Step h (.call t) (h.setRelease t .waiting)
  /-- `trigger_unlock()` finds the flag set and spawns a task. -/
  | trigger {h : LockHandle τ} (t : τ) : h.release t = .idle → h.aliveFlag = true → h.alive = true →
      Step h (.trigger t) (h.setRelease t .waiting)
  | acquire {h : LockHandle τ} (t : τ) : h.release t = .waiting → h.unlockMutex = none →
      Step h (.acquire t) { h.setRelease t .locked with unlockMutex := some t }
  | swapSet {h : LockHandle τ} (t : τ) : h.release t = .locked → (h.aliveFlag && h.alive) = true →
      Step h (.swap t) { h.setRelease t .deleting with aliveFlag := false }
  | swapClear {h : LockHandle τ} (t : τ) : h.release t = .locked →
      (h.aliveFlag && h.alive) = false →
      Step h (.swap t) { h.setRelease t .deleted with aliveFlag := false }
  | delete {h : LockHandle τ} (t : τ) : h.release t = .deleting →
      Step h (.delete t) (h.setRelease t .deleted)
  | deleteFail {h : LockHandle τ} (t : τ) : h.release t = .deleting →
      Step h (.deleteFail t) (h.setRelease t .deleted)
  | finish {h : LockHandle τ} (t : τ) : h.release t = .deleted →
      Step h (.finish t) { h.setRelease t .returned with unlockMutex := none }

/-- What an event of the handle does to the locks directory. -/
def LockHandle.effect (h : LockHandle τ) (e : HandleEvent τ) (locks : Dir LockFile) :
    Dir LockFile :=
  match e with
  | .save => locks.insert h.lock.id (.encoded h.lock)
  | .delete _ => locks.erase h.lock.id
  | _ => locks

/-- No step changes the ID of the lock. -/
theorem LockHandle.Step.lock_id [DecidableEq τ] {h h' : LockHandle τ} {e : HandleEvent τ}
    (hstep : h.Step e h') : h'.lock.id = h.lock.id := by
  cases hstep <;> rfl

/-- No step changes whether the lock is exclusive. -/
theorem LockHandle.Step.lock_exclusive [DecidableEq τ] {h h' : LockHandle τ} {e : HandleEvent τ}
    (hstep : h.Step e h') : h'.lock.exclusive = h.lock.exclusive := by
  cases hstep <;> rfl

/-- An event of a handle only touches the file of its own lock. -/
theorem LockHandle.effect_lookup_ne (h : LockHandle τ) (e : HandleEvent τ) (locks : Dir LockFile)
    {id : ID} (hne : id ≠ h.lock.id) : (h.effect e locks).lookup id = locks.lookup id := by
  cases e with
  | save => exact AList.lookup_insert_ne hne
  | delete t => exact AList.lookup_erase_ne hne
  | wake | stamp | saveFail | call | trigger | acquire | swap | deleteFail | finish => rfl

/-! ## The handle and its file -/

/-- A handle and the locks directory. -/
structure HeldLock (τ : Type) where
  handle : LockHandle τ
  locks : Dir LockFile

/-- Labels of `HeldLock.Step`: an event of the handle, or what other clients do to the directory. -/
inductive HeldLabel (τ : Type) where
  | handle (e : HandleEvent τ)
  | others
  deriving DecidableEq

/-- A step of the handle's tasks with its effect on the directory, or any change by other clients.
Other clients have IDs of their own, so they never create this file; they may remove it as stale. -/
inductive HeldLock.Step [DecidableEq τ] : HeldLock τ → HeldLabel τ → HeldLock τ → Prop where
  | handle {s : HeldLock τ} {e : HandleEvent τ} {h' : LockHandle τ} : s.handle.Step e h' →
      Step s (.handle e) ⟨h', s.handle.effect e s.locks⟩
  | others {s : HeldLock τ} {locks' : Dir LockFile} :
      (locks'.lookup s.handle.lock.id = s.locks.lookup s.handle.lock.id ∨
        locks'.lookup s.handle.lock.id = none) →
      Step s .others ⟨s.handle, locks'⟩

/-- The refresh task stands between its check of `alive_flag` and the end of its write. -/
def LockHandle.refreshInFlight (h : LockHandle τ) : Bool :=
  h.refresh = .checked || h.refresh = .stamped

/-- A step that deletes the lock file does so while no refresh is in flight. -/
def DeletesBetweenRefreshes (s : HeldLock τ) (l : HeldLabel τ) : Prop :=
  ∀ t, l = .handle (.delete t) → s.handle.refreshInFlight = false

/-- The step is not a failed delete of the lock file. -/
def HeldLabel.deleteSucceeds : HeldLabel τ → Bool
  | .handle (.deleteFail _) => false
  | _ => true

/-- The file is gone and no refresh is about to write it. -/
def HeldLock.Gone (s : HeldLock τ) : Prop :=
  s.locks.lookup s.handle.lock.id = none ∧ s.handle.refreshInFlight = false

/-- What the releases of a handle keep: `unlock_mutex` serialises them, and from the moment the flag
is cleared either a release is about to delete the file or the file is gone. -/
structure HeldLock.Inv (s : HeldLock τ) : Prop where
  mutex : ∀ t, s.handle.release t = .locked ∨ s.handle.release t = .deleting ∨
    s.handle.release t = .deleted → s.handle.unlockMutex = some t
  cleared : s.handle.aliveFlag = false → (∀ t, s.handle.release t ≠ .deleting) → s.Gone
  deleting : ∀ t, s.handle.release t = .deleting → s.handle.aliveFlag = false
  done : ∀ t, s.handle.release t = .deleted ∨ s.handle.release t = .returned →
    s.handle.aliveFlag = false ∧ s.Gone
  dry : s.handle.alive = false → s.Gone ∧ s.handle.refresh = .stopped

section Invariant

variable {s : HeldLock τ}

theorem HeldLock.Inv.new {lock : Lock} {alive : Bool} {locks : Dir LockFile}
    (hdry : alive = false → locks.lookup lock.id = none) :
    HeldLock.Inv (τ := τ) ⟨.new lock alive, locks⟩ := by
  refine ⟨by simp [LockHandle.new], by simp [LockHandle.new], by simp [LockHandle.new],
    by simp [LockHandle.new], ?_⟩
  intro halive
  have halive' : alive = false := halive
  subst halive'
  exact ⟨⟨hdry rfl, rfl⟩, rfl⟩

/-- Two releases are never both past `unlock_mutex`. -/
theorem HeldLock.Inv.eq_of_mutex (hinv : s.Inv) {t u : τ}
    (ht : s.handle.release t = .locked ∨ s.handle.release t = .deleting ∨
      s.handle.release t = .deleted)
    (hu : s.handle.release u = .locked ∨ s.handle.release u = .deleting ∨
      s.handle.release u = .deleted) : t = u := by
  have h := (hinv.mutex t ht).symm.trans (hinv.mutex u hu)
  exact Option.some.inj h

theorem HeldLock.Inv.step_others {locks' : Dir LockFile} (hinv : s.Inv)
    (h : locks'.lookup s.handle.lock.id = s.locks.lookup s.handle.lock.id ∨
        locks'.lookup s.handle.lock.id = none) : HeldLock.Inv ⟨s.handle, locks'⟩ := by
  have hgone : s.Gone → HeldLock.Gone ⟨s.handle, locks'⟩ := by
    rintro ⟨habsent, hidle⟩
    refine ⟨?_, hidle⟩
    rcases h with hsame | hnone
    · exact hsame.trans habsent
    · exact hnone
  refine ⟨hinv.mutex, ?_, hinv.deleting, ?_, ?_⟩
  · intro hflag hnone
    exact hgone (hinv.cleared hflag hnone)
  · intro t ht
    obtain ⟨hflag, hg⟩ := hinv.done t ht
    exact ⟨hflag, hgone hg⟩
  · intro halive
    obtain ⟨hg, hstopped⟩ := hinv.dry halive
    exact ⟨hgone hg, hstopped⟩

/-- A step of the refresh task keeps the invariant if, once the flag is cleared, it leaves a file
that is gone as it is. -/
theorem HeldLock.Inv.step_refresh {r : RefreshPhase} {lock : Lock} {locks' : Dir LockFile}
    (hinv : s.Inv) (hrun : s.handle.refresh ≠ .stopped)
    (hgone : s.handle.aliveFlag = false → s.Gone →
      HeldLock.Gone ⟨{ s.handle with lock := lock, refresh := r }, locks'⟩) :
    HeldLock.Inv ⟨{ s.handle with lock := lock, refresh := r }, locks'⟩ := by
  refine ⟨hinv.mutex, ?_, hinv.deleting, ?_, ?_⟩
  · intro hflag hnone
    exact hgone hflag (hinv.cleared hflag hnone)
  · intro t ht
    obtain ⟨hflag, hg⟩ := hinv.done t ht
    exact ⟨hflag, hgone hflag hg⟩
  · intro halive
    exact absurd (hinv.dry halive).2 hrun

variable [DecidableEq τ]

/-- A release that starts waiting keeps the invariant. -/
theorem HeldLock.Inv.step_wait {t : τ} (hinv : s.Inv) (ht : s.handle.release t = .idle) :
    HeldLock.Inv ⟨s.handle.setRelease t .waiting, s.locks⟩ := by
  refine ⟨?_, ?_, ?_, ?_, hinv.dry⟩
  · intro u hu
    exact hinv.mutex u (by grind)
  · intro hflag hnone
    refine hinv.cleared hflag ?_
    intro u hu
    exact hnone u (by grind)
  · intro u hu
    exact hinv.deleting u (by grind)
  · intro u hu
    exact hinv.done u (by grind)

/-- A step of the handle's tasks keeps the invariant, if its delete succeeds and falls between two
refreshes. -/
theorem HeldLock.Inv.step_handle {e : HandleEvent τ} {h' : LockHandle τ}
    (hinv : s.Inv) (hok : DeletesBetweenRefreshes s (.handle e))
    (hdel : (HeldLabel.handle e).deleteSucceeds = true) (hstep : s.handle.Step e h') :
    HeldLock.Inv ⟨h', s.handle.effect e s.locks⟩ := by
  cases hstep with
  | wakeAlive hr hflag =>
    refine hinv.step_refresh (by simp [hr]) ?_
    intro hcleared
    rw [hflag] at hcleared
    exact absurd hcleared Bool.noConfusion
  | wakeReleased hr _ =>
    refine hinv.step_refresh (by simp [hr]) ?_
    rintro _ ⟨habsent, _⟩
    exact ⟨habsent, rfl⟩
  | stamp now hr | save hr | saveFail hr =>
    refine hinv.step_refresh (by simp [hr]) ?_
    rintro _ ⟨_, hidle⟩
    simp [LockHandle.refreshInFlight, hr] at hidle
  | call t ht | trigger t ht _ _ => exact hinv.step_wait ht
  | acquire t ht hmx =>
    refine ⟨?_, ?_, ?_, ?_, hinv.dry⟩
    · intro u hu
      have hmutex := hinv.mutex u
      grind
    · intro hflag hnone
      refine hinv.cleared hflag ?_
      intro u hu
      exact hnone u (by grind)
    · intro u hu
      exact hinv.deleting u (by grind)
    · intro u hu
      exact hinv.done u (by grind)
  | swapSet t ht hset =>
    rw [Bool.and_eq_true] at hset
    refine ⟨?_, ?_, ?_, ?_, ?_⟩
    · intro u hu
      have hmutex := hinv.mutex u
      have hmutex' := hinv.mutex t (Or.inl ht)
      grind
    · intro _ hnone
      exact absurd (by simp) (hnone t)
    · intro u _
      rfl
    · intro u hu
      have hdone := hinv.done u
      grind
    · intro halive
      exact absurd (halive.symm.trans hset.2) Bool.noConfusion
  | swapClear t ht hclear =>
    have hgone : s.Gone := by
      rcases Bool.and_eq_false_iff.mp hclear with hflag | halive
      · refine hinv.cleared hflag ?_
        intro u hu
        -- the mutex is held by `t`, which is not deleting
        have heq : u = t := hinv.eq_of_mutex (Or.inr (Or.inl hu)) (Or.inl ht)
        rw [heq, ht] at hu
        exact ReleasePhase.noConfusion hu
      · exact (hinv.dry halive).1
    refine ⟨?_, fun _ _ => hgone, fun _ _ => rfl, fun _ _ => ⟨rfl, hgone⟩, hinv.dry⟩
    intro u hu
    have hmutex := hinv.mutex u
    have hmutex' := hinv.mutex t (Or.inl ht)
    grind
  | delete t ht =>
    have hgone : HeldLock.Gone ⟨s.handle.setRelease t .deleted, s.locks.erase s.handle.lock.id⟩ :=
      ⟨AList.lookup_erase _ _, hok t rfl⟩
    have hflag := hinv.deleting t ht
    refine ⟨?_, fun _ _ => hgone, ?_, fun _ _ => ⟨hflag, hgone⟩, ?_⟩
    · intro u hu
      have hmutex := hinv.mutex u
      have hmutex' := hinv.mutex t (Or.inr (Or.inl ht))
      grind
    · intro u _
      exact hflag
    · intro halive
      exact ⟨hgone, (hinv.dry halive).2⟩
  | deleteFail t _ => exact absurd hdel Bool.noConfusion
  | finish t ht =>
    obtain ⟨hflag, hgone⟩ := hinv.done t (Or.inl ht)
    refine ⟨?_, fun _ _ => hgone, fun _ _ => hflag, fun _ _ => ⟨hflag, hgone⟩, hinv.dry⟩
    intro u hu
    -- only `t` was past the mutex
    have hmutex := hinv.eq_of_mutex (s := s) (t := u) (u := t)
    grind
/-- A finished release stays finished. -/
theorem LockHandle.Step.returned {h h' : LockHandle τ} {e : HandleEvent τ} {t : τ}
    (hstep : h.Step e h') (ht : h.release t = .returned) : h'.release t = .returned := by
  cases hstep <;> grind

end Invariant

/-! ## Runs -/

section Runs

variable [DecidableEq τ] {s t : HeldLock τ} {l : HeldLabel τ}

theorem HeldLock.Step.lock_id (hstep : s.Step l t) : t.handle.lock.id = s.handle.lock.id := by
  cases hstep with
  | handle h => exact h.lock_id
  | others _ => rfl

theorem HeldLock.Inv.step (hinv : s.Inv) (hdel : l.deleteSucceeds = true)
    (hstep : Guarded HeldLock.Step DeletesBetweenRefreshes s l t) : t.Inv := by
  obtain ⟨hst, hok⟩ := hstep
  cases hst with
  | handle h => exact hinv.step_handle hok hdel h
  | others h => exact hinv.step_others h

theorem HeldLock.Step.returned {u : τ} (hstep : s.Step l t) (hu : s.handle.release u = .returned) :
    t.handle.release u = .returned := by
  cases hstep with
  | handle h => exact h.returned hu
  | others _ => exact hu

/-- **A released lock stays released.** In every run whose deletes succeed and fall between two
refreshes, the file of the lock does not exist once a release has returned, nor at any later point.
A handle that is not `alive` belongs to a dry run, whose backend never wrote the file. -/
theorem released_lock_stays_released {lock : Lock} {alive : Bool} {locks : Dir LockFile}
    (hdry : alive = false → locks.lookup lock.id = none) {s₁ s₂ : HeldLock τ}
    {ls₁ ls₂ : List (HeldLabel τ)}
    (h₁ : Run (Guarded HeldLock.Step DeletesBetweenRefreshes) ⟨.new lock alive, locks⟩ ls₁ s₁)
    (h₂ : Run (Guarded HeldLock.Step DeletesBetweenRefreshes) s₁ ls₂ s₂)
    (hdel : ∀ l ∈ ls₁ ++ ls₂, l.deleteSucceeds = true) {u : τ}
    (hu : s₁.handle.release u = .returned) :
    s₁.locks.lookup lock.id = none ∧ s₂.locks.lookup lock.id = none := by
  have hstep : ∀ (s : HeldLock τ) (l : HeldLabel τ) (t : HeldLock τ), l.deleteSucceeds = true →
      (s.Inv ∧ s.handle.lock.id = lock.id) →
      Guarded HeldLock.Step DeletesBetweenRefreshes s l t → t.Inv ∧ t.handle.lock.id = lock.id := by
    rintro s l t hl ⟨hinv, hid⟩ hst
    exact ⟨hinv.step hl hst, hst.1.lock_id.trans hid⟩
  have hs₁ := h₁.invariant_of_labels hstep (fun l hl => hdel l (List.mem_append_left _ hl))
    ⟨HeldLock.Inv.new hdry, rfl⟩
  have hs₂ := h₂.invariant_of_labels hstep (fun l hl => hdel l (List.mem_append_right _ hl)) hs₁
  have hu₂ : s₂.handle.release u = .returned :=
    h₂.invariant (fun _ _ _ hu hst => hst.1.returned hu) hu
  have hgone₁ := (hs₁.1.done u (Or.inr hu)).2.1
  have hgone₂ := (hs₂.1.done u (Or.inr hu₂)).2.1
  rw [hs₁.2] at hgone₁
  rw [hs₂.2] at hgone₂
  exact ⟨hgone₁, hgone₂⟩

/-- An exclusive lock, for the concrete runs. -/
def soleLock : Lock where
  id := 1
  timestamp := 0
  exclusive := true
  hostname := "host"
  username := "user"
  pid := 1
  context := []
  creationTime := some 0

/-- The lock is held and nothing else is in the directory. -/
def soleHeld : HeldLock Unit := ⟨.new soleLock true, AList.singleton soleLock.id (.encoded soleLock)⟩

/-- An `unlock()` that no refresh crosses. -/
theorem sole_lock_released : ∃ s : HeldLock Unit,
    Run (Guarded HeldLock.Step DeletesBetweenRefreshes) soleHeld
      [.handle (.call ()), .handle (.acquire ()), .handle (.swap ()), .handle (.delete ()),
        .handle (.finish ())] s ∧ s.handle.release () = .returned ∧
      s.locks.lookup soleLock.id = none := by
  have hrun : ∃ s : HeldLock Unit, Run (Guarded HeldLock.Step DeletesBetweenRefreshes) soleHeld
      [.handle (.call ()), .handle (.acquire ()), .handle (.swap ()), .handle (.delete ()),
        .handle (.finish ())] s ∧ s.handle.release () = .returned := by
    refine ⟨_, .snoc (.snoc (.snoc (.snoc (.snoc .nil ⟨.handle (.call () rfl), ?_⟩)
      ⟨.handle (.acquire () rfl rfl), ?_⟩) ⟨.handle (.swapSet () rfl rfl), ?_⟩)
      ⟨.handle (.delete () rfl), ?_⟩) ⟨.handle (.finish () rfl), ?_⟩, rfl⟩
    all_goals
      intro _ _
      rfl
  obtain ⟨s, h, hret⟩ := hrun
  exact ⟨s, h, hret, (released_lock_stays_released (fun h => Bool.noConfusion h) h .nil
    (by decide) hret).1⟩

/-- The refresh task loads a set flag, `unlock()` runs to its end and deletes the file, and the
write of the refresh brings it back. -/
theorem refresh_resurrects_released_lock : ∃ (ls : List (HeldLabel Unit)) (s : HeldLock Unit),
    Run HeldLock.Step soleHeld ls s ∧ (∀ l ∈ ls, l.deleteSucceeds = true) ∧
      s.handle.release () = .returned ∧ s.locks.lookup soleLock.id ≠ none := by
  refine ⟨_, _, .snoc (.snoc (.snoc (.snoc (.snoc (.snoc (.snoc (.snoc .nil
    (.handle (.wakeAlive rfl rfl))) (.handle (.stamp 1 rfl))) (.handle (.call () rfl)))
    (.handle (.acquire () rfl rfl))) (.handle (.swapSet () rfl rfl))) (.handle (.delete () rfl)))
    (.handle (.finish () rfl))) (.handle (.save rfl)), by decide, rfl, by decide⟩

end Runs

end Mapache
