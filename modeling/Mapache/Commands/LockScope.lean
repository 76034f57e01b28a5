import Mapache.Lock.Handle

/-!
# The lock of a running command

How long `forget` and `clean` keep their exclusive lock. `with_repository_lock` gives the body of
the command a clone of its `LockHandle`; the body puts a clone into the `CleanupHandler` of each
phase, where a signal task shares it; and every drop of a clone calls `trigger_unlock`. `Scope.Step`
follows the main task statement by statement, with the signal tasks, the tasks of the handle and the
pack workers beside it. The clones of a handler sit in one shared vector, which dies with the later
of the handler and its signal task; dropping the handler only asks the runtime to abort the task.

`forget --clean` drops the handler of its first phase and goes on to collect garbage, so the lock is
released under it (`forget_clean_writes_unlocked`). `command_writes_under_lock` gives the runs in
which every write is protected: those in which nothing gives the lock away while the command still
has a write to issue.
-/

set_option autoImplicit false

namespace Mapache

open Lib

/-! ## Programs -/

/-- The two places that own a `CleanupHandler`: `cmd_forget::run` and `cmd_clean::run_with_repo`. -/
inductive Owner where
  | forget
  | clean
  deriving DecidableEq

/-- What a phase does, as far as the lock is concerned. -/
inductive Op where
  /-- A backend write, rename or delete by the main task. -/
  | write
  /-- Hand a pack to the workers of the pack saver, which will write it. -/
  | spawn
  /-- Wait for the workers. -/
  | join
  /-- Leave with an error if the interrupt flag of the phase is set. -/
  | check
  deriving DecidableEq

/-- A statement of the body that runs under the lock. -/
inductive Stmt where
  | newHandler (o : Owner)
  /-- `add_lock`, with a clone of the body's handle or with that handle itself. -/
  | addLock (o : Owner) (moved : Bool)
  | write
  | spawn
  | join
  | check (o : Owner)
  | dropHandler (o : Owner)
  deriving DecidableEq

/-- An operation in the phase that owns the handler `o`. -/
def Op.stmt (o : Owner) : Op → Stmt
  | .write => .write
  | .spawn => .spawn
  | .join => .join
  | .check => .check o

/-- The body of `cmd_clean::run_with_repo`, whose garbage collection performs `gc`. -/
def cleanBody (gc : List Op) : List Stmt :=
  [.newHandler .clean, .addLock .clean true] ++ gc.map (Op.stmt .clean) ++ [.dropHandler .clean]

/-- The body of `cmd_forget::run`, whose first phase performs `phase`. -/
def forgetBody (runGc : Bool) (phase gc : List Op) : List Stmt :=
  [.newHandler .forget, .addLock .forget false] ++ phase.map (Op.stmt .forget) ++
    [.check .forget, .dropHandler .forget] ++ if runGc then cleanBody gc else []

/-- The two commands, by what their phases do. -/
inductive Command where
  | clean (gc : List Op)
  | forget (runGc : Bool) (phase gc : List Op)

/-- The body that `with_repository_lock` runs for a command. -/
def Command.body : Command → List Stmt
  | .clean gc => cleanBody gc
  | .forget runGc phase gc => forgetBody runGc phase gc

/-! ## State -/

/-- The task that waits for a termination signal. -/
inductive SignalTask where
  | waiting
  /-- The signal arrived, the interrupt flag is not yet stored. -/
  | received
  /-- The flag is stored, `trigger_unlock` is still to be called. -/
  | flagged
  /-- `abort()` was called while it waited; the runtime will drop it. -/
  | cancelled
  /-- Its future is dropped. -/
  | gone
  deriving DecidableEq

/-- A `CleanupHandler` with its signal task. -/
structure CleanupHandler where
  interrupted : Bool
  /-- The shared vector of lock handles holds a clone. -/
  locks : Bool
  /-- The handler itself is not dropped. -/
  owned : Bool
  task : SignalTask
  deriving DecidableEq

/-- `CleanupHandler::new`. -/
def CleanupHandler.new : CleanupHandler := ⟨false, false, true, .waiting⟩

/-- What can release the lock: `unlock()` at the end of `with_repository_lock`, the drop of the
clone that the body owns, the drop of a handler's vector, or a signal task. -/
inductive Releaser where
  | unlock
  | clone
  | handles (o : Owner)
  | signal (o : Owner)
  deriving DecidableEq

/-- The main task. -/
inductive MainPhase where
  | body (stmts : List Stmt)
  /-- The body has returned; what it owns is being dropped. -/
  | unwinding
  /-- In `unlock().await`. -/
  | unlocking
  | exited
  deriving DecidableEq

/-- The process of one command and the locks directory. -/
structure Scope where
  main : MainPhase
  /-- The body still owns its clone of the handle. -/
  clone : Bool
  handlers : Owner → Option CleanupHandler
  handle : LockHandle Releaser
  locks : Dir LockFile
  /-- Packs the workers have yet to write. -/
  background : Nat

/-- The command has its lock and is about to run its body. -/
def Scope.start (lock : Lock) (cmd : Command) : Scope where
  main := .body cmd.body
  clone := true
  handlers := fun _ => none
  handle := .new lock true
  locks := AList.singleton lock.id (.encoded lock)
  background := 0

/-- `trigger_unlock()`: spawn a release unless the lock is already released. -/
def LockHandle.triggerUnlock (h : LockHandle Releaser) (r : Releaser) : LockHandle Releaser :=
  if h.aliveFlag && h.alive then h.setRelease r .waiting else h

/-- The handler `o` becomes `h`. When neither the handler nor its task is left, the vector of lock
handles is dropped, and with it the clone it holds. -/
def Scope.setHandler (s : Scope) (o : Owner) (h : CleanupHandler) : Scope :=
  if h.owned = false ∧ h.task = .gone ∧ h.locks = true then
    { s with
      handlers := Function.update s.handlers o (some { h with locks := false })
      handle := s.handle.triggerUnlock (.handles o) }
  else { s with handlers := Function.update s.handlers o (some h) }

/-- Drop a handler: abort its task, which only reaches a task that still waits. -/
def CleanupHandler.drop (h : CleanupHandler) : CleanupHandler :=
  { h with owned := false, task := if h.task = .waiting then .cancelled else h.task }

/-- The events that start a release. They are no steps of the handle's own tasks: the main task and
the signal tasks cause them. -/
def HandleEvent.byCaller {τ : Type} : HandleEvent τ → Bool
  | .call _ => true
  | .trigger _ => true
  | _ => false

/-- The labels of `Scope.Step`. -/
inductive ScopeLabel where
  /-- A backend write or delete under the lock. -/
  | write
  /-- A signal task stores its interrupt flag. -/
  | signal (o : Owner)
  /-- The body drops a handler. -/
  | dropHandler
  /-- The body is left, at its end or by an error. -/
  | leave
  /-- The lock file is removed as stale. -/
  | stale
  | internal
  deriving DecidableEq

/-- One step of the process. -/
inductive Scope.Step : Scope → ScopeLabel → Scope → Prop where
  | newHandler {s : Scope} {o : Owner} {rest : List Stmt} :
      s.main = .body (.newHandler o :: rest) →
      Step s .internal { s with
        main := .body rest, handlers := Function.update s.handlers o (some .new) }
  | addLock {s : Scope} {o : Owner} {moved : Bool} {rest : List Stmt} {h : CleanupHandler} :
      s.main = .body (.addLock o moved :: rest) → s.handlers o = some h →
      Step s .internal { s with
        main := .body rest, clone := s.clone && !moved
        handlers := Function.update s.handlers o (some { h with locks := true }) }
  | write {s : Scope} {rest : List Stmt} : s.main = .body (.write :: rest) →
      Step s .write { s with main := .body rest }
  | spawn {s : Scope} {rest : List Stmt} : s.main = .body (.spawn :: rest) →
      Step s .internal { s with main := .body rest, background := s.background + 1 }
  /-- A pack worker writes; it goes on when the main task does not. -/
  | worker {s : Scope} {n : Nat} : s.background = n + 1 → Step s .write { s with background := n }
  | join {s : Scope} {rest : List Stmt} : s.main = .body (.join :: rest) → s.background = 0 →
      Step s .internal { s with main := .body rest }
  | checkPass {s : Scope} {o : Owner} {rest : List Stmt} {h : CleanupHandler} :
      s.main = .body (.check o :: rest) → s.handlers o = some h → h.interrupted = false →
      Step s .internal { s with main := .body rest }
  | checkStop {s : Scope} {o : Owner} {rest : List Stmt} {h : CleanupHandler} :
      s.main = .body (.check o :: rest) → s.handlers o = some h → h.interrupted = true →
      Step s .internal { s with main := .unwinding }
  | dropHandler {s : Scope} {o : Owner} {rest : List Stmt} {h : CleanupHandler} :
      s.main = .body (.dropHandler o :: rest) → s.handlers o = some h →
      Step s .dropHandler { s.setHandler o h.drop with main := .body rest }
  /-- The body may fail at any statement. -/
  | leave {s : Scope} {stmts : List Stmt} : s.main = .body stmts →
      Step s .leave { s with main := .unwinding }
  | unwindHandler {s : Scope} {o : Owner} {h : CleanupHandler} : s.main = .unwinding →
      s.handlers o = some h → h.owned = true → Step s .internal (s.setHandler o h.drop)
  | unwindClone {s : Scope} : s.main = .unwinding →
      (∀ o h, s.handlers o = some h → h.owned = false) → s.clone = true →
      Step s .internal { s with clone := false, handle := s.handle.triggerUnlock .clone }
  | callUnlock {s : Scope} : s.main = .unwinding →
      (∀ o h, s.handlers o = some h → h.owned = false) → s.clone = false →
      Step s .internal { s with main := .unlocking, handle := s.handle.setRelease .unlock .waiting }
  | exit {s : Scope} : s.main = .unlocking → s.handle.release .unlock = .returned →
      Step s .internal { s with main := .exited }
  | receive {s : Scope} {o : Owner} {h : CleanupHandler} : s.handlers o = some h →
      h.task = .waiting → Step s .internal (s.setHandler o { h with task := .received })
  | signal {s : Scope} {o : Owner} {h : CleanupHandler} : s.handlers o = some h →
      h.task = .received →
      Step s (.signal o) (s.setHandler o { h with interrupted := true, task := .flagged })
  /-- The signal task calls `trigger_unlock` on the handles of its vector and ends. -/
  | fire {s : Scope} {o : Owner} {h : CleanupHandler} : s.handlers o = some h →
      h.task = .flagged →
      Step s .internal (Scope.setHandler { s with
        handle := if h.locks then s.handle.triggerUnlock (.signal o) else s.handle } o
        { h with task := .gone })
  /-- The runtime drops the future of an aborted task. -/
  | reap {s : Scope} {o : Owner} {h : CleanupHandler} : s.handlers o = some h →
      h.task = .cancelled → Step s .internal (s.setHandler o { h with task := .gone })
  | handle {s : Scope} {e : HandleEvent Releaser} {h' : LockHandle Releaser} :
      e.byCaller = false → s.handle.Step e h' →
      Step s .internal { s with handle := h', locks := s.handle.effect e s.locks }
  /-- A client that judges the lock stale deletes it; so does `remove_expired_locks`. -/
  | stale {s : Scope} : Step s .stale { s with locks := s.locks.erase s.handle.lock.id }

/-! ## Writes that are still to come -/

/-- The interrupt flags. -/
def Scope.interrupted (s : Scope) (o : Owner) : Bool :=
  match s.handlers o with
  | none => false
  | some h => h.interrupted

/-- The statements lead to a write before a check that stops them. -/
def issues (interrupted : Owner → Bool) : List Stmt → Bool
  | [] => false
  | .write :: _ => true
  | .spawn :: _ => true
  | .check o :: rest => !interrupted o && issues interrupted rest
  | .newHandler o :: rest => issues (Function.update interrupted o false) rest
  | .addLock _ _ :: rest => issues interrupted rest
  | .join :: rest => issues interrupted rest
  | .dropHandler _ :: rest => issues interrupted rest

/-- The command will write again, if its interrupt flags are as given and nothing else stops it. -/
def Scope.pendingWith (s : Scope) (interrupted : Owner → Bool) : Bool :=
  s.background != 0 ||
    match s.main with
    | .body stmts => issues interrupted stmts
    | _ => false

/-- Nothing gives the lock away while the command has a write to come: a signal is noted, a handler
dropped, the lock removed as stale only when no write is left, and the body is left only when the
pack workers are done. -/
def GivesUpLast (s : Scope) : ScopeLabel → Prop
  | .signal o => s.pendingWith (Function.update s.interrupted o true) = false
  | .dropHandler => s.pendingWith s.interrupted = false
  | .leave => s.background = 0
  | .stale => s.pendingWith s.interrupted = false
  | .write => True
  | .internal => True

/-- The lock file exists and nothing has started to release the lock. -/
def Scope.Protected (s : Scope) : Prop :=
  (s.locks.lookup s.handle.lock.id).isSome = true ∧ s.handle.aliveFlag = true ∧
    ∀ r, s.handle.release r = .idle

/-! ## The invariant -/

/-- The lock is held, nothing is about to release it, and the body runs. -/
structure Scope.Safe (s : Scope) : Prop where
  held : s.Protected
  handlers : ∀ o h, s.handlers o = some h →
    h.owned = true ∧ h.interrupted = false ∧ (h.task = .waiting ∨ h.task = .received)
  running : ∃ stmts, s.main = .body stmts

/-- No write is left. -/
def Scope.Quiet (s : Scope) : Prop := s.pendingWith s.interrupted = false

/-- Setting an interrupt flag only removes writes. -/
theorem issues_mono {I J : Owner → Bool} (hIJ : ∀ o, I o = true → J o = true) (stmts : List Stmt)
    (h : issues I stmts = false) : issues J stmts = false := by
  induction stmts generalizing I J with
  | nil => rfl
  | cons st rest ih =>
    cases st with
    | write => exact h
    | spawn => exact h
    | check o =>
      simp only [issues, Bool.and_eq_false_iff, Bool.not_eq_false'] at h ⊢
      rcases h with hflag | hrest
      · exact Or.inl (hIJ o hflag)
      · exact Or.inr (ih hIJ hrest)
    | newHandler o =>
      refine ih (I := Function.update I o false) ?_ h
      intro o' ho'
      by_cases heq : o' = o
      · subst heq
        simp at ho'
      · rw [Function.update_of_ne heq] at ho' ⊢
        exact hIJ o' ho'
    | addLock o moved => exact ih hIJ h
    | join => exact ih hIJ h
    | dropHandler o => exact ih hIJ h

/-- A handler's flag is what was set; the others keep theirs. -/
theorem Scope.interrupted_of_handlers {s t : Scope} {o : Owner} {h : CleanupHandler}
    (ht : t.handlers = Function.update s.handlers o (some h)) :
    t.interrupted = Function.update s.interrupted o h.interrupted := by
  funext o'
  by_cases heq : o' = o
  · subst heq
    simp [Scope.interrupted, ht]
  · simp [Scope.interrupted, ht, Function.update_of_ne heq]

section Handlers

variable (s : Scope) (o : Owner) (h : CleanupHandler)

@[simp] theorem Scope.setHandler_main : (s.setHandler o h).main = s.main := by
  unfold Scope.setHandler
  split <;> rfl

@[simp] theorem Scope.setHandler_background : (s.setHandler o h).background = s.background := by
  unfold Scope.setHandler
  split <;> rfl

theorem Scope.setHandler_interrupted :
    (s.setHandler o h).interrupted = Function.update s.interrupted o h.interrupted := by
  unfold Scope.setHandler
  split
  · exact Scope.interrupted_of_handlers (h := { h with locks := false }) rfl
  · exact Scope.interrupted_of_handlers rfl

/-- A handler that is not dropped keeps its vector. -/
theorem Scope.setHandler_of_owned (howned : h.owned = true) :
    s.setHandler o h = { s with handlers := Function.update s.handlers o (some h) } := by
  simp [Scope.setHandler, howned]

end Handlers

/-- A command without a write to come stays so, if its flags are only set and its body only shrinks.
-/
theorem Scope.Quiet.of_le {s t : Scope} (h : s.Quiet) (hback : t.background = s.background)
    (hflags : ∀ o, s.interrupted o = true → t.interrupted o = true)
    (hmain : ∀ stmts, t.main = .body stmts → ∃ stmts', s.main = .body stmts' ∧
      (issues s.interrupted stmts' = false → issues s.interrupted stmts = false)) : t.Quiet := by
  simp only [Scope.Quiet, Scope.pendingWith, Bool.or_eq_false_iff] at h ⊢
  refine ⟨by rw [hback]; exact h.1, ?_⟩
  split
  · rename_i stmts hstmts
    obtain ⟨stmts', hs, himp⟩ := hmain stmts hstmts
    have hbody := h.2
    rw [hs] at hbody
    exact issues_mono hflags stmts (himp hbody)
  · rfl

/-- Storing the flag it already has, or setting it, a handler loses no flag. -/
theorem Scope.interrupted_setHandler_of_le {s : Scope} {o : Owner} {h h' : CleanupHandler}
    (hold : s.handlers o = some h) (hle : h.interrupted = true → h'.interrupted = true) (o' : Owner)
    (ho' : s.interrupted o' = true) : (s.setHandler o h').interrupted o' = true := by
  rw [Scope.setHandler_interrupted]
  by_cases heq : o' = o
  · subst heq
    rw [Function.update_self]
    refine hle ?_
    simpa [Scope.interrupted, hold] using ho'
  · rw [Function.update_of_ne heq]
    exact ho'

/-- A change of one handler, with the main task and the workers where they were. -/
theorem Scope.Quiet.setHandler {s s' : Scope} (hq : s.Quiet) {o : Owner} {h h' : CleanupHandler}
    (hold : s.handlers o = some h) (hle : h.interrupted = true → h'.interrupted = true)
    (hmain : s'.main = s.main) (hback : s'.background = s.background)
    (hhandlers : s'.handlers = s.handlers) : (s'.setHandler o h').Quiet := by
  have hflags : s'.interrupted = s.interrupted := by
    funext o'
    simp [Scope.interrupted, hhandlers]
  refine hq.of_le (by simp [hback]) ?_ ?_
  · intro o' ho'
    rw [← hflags] at ho'
    exact Scope.interrupted_setHandler_of_le (by rw [hhandlers]; exact hold) hle o' ho'
  · intro stmts hstmts
    exact ⟨stmts, by simpa [hmain] using hstmts, id⟩

/-- A statement that is no write leaves the later statements without one. -/
theorem Scope.Quiet.next {s t : Scope} (hq : s.Quiet) {st : Stmt} {rest : List Stmt}
    (hs : s.main = .body (st :: rest)) (ht : t.main = .body rest)
    (hback : t.background = s.background) (hhandlers : t.interrupted = s.interrupted)
    (himp : issues s.interrupted (st :: rest) = false → issues s.interrupted rest = false) :
    t.Quiet := by
  refine hq.of_le hback (fun o ho => by rw [hhandlers]; exact ho) ?_
  intro stmts hstmts
  rw [ht] at hstmts
  cases hstmts
  exact ⟨_, hs, himp⟩

/-- The body is gone, so there is nothing left to write. -/
theorem Scope.Quiet.of_not_body {t : Scope} (hback : t.background = 0)
    (hmain : ∀ stmts, t.main ≠ .body stmts) : t.Quiet := by
  cases hm : t.main with
  | body stmts => exact absurd hm (hmain stmts)
  | unwinding | unlocking | exited => simp [Scope.Quiet, Scope.pendingWith, hback, hm]

theorem Scope.Quiet.background {s : Scope} (hq : s.Quiet) : s.background = 0 := by
  simp only [Scope.Quiet, Scope.pendingWith, Bool.or_eq_false_iff, bne_eq_false_iff_eq] at hq
  exact hq.1

theorem Scope.Quiet.issues {s : Scope} (hq : s.Quiet) {stmts : List Stmt}
    (hs : s.main = .body stmts) : issues s.interrupted stmts = false := by
  simp only [Scope.Quiet, Scope.pendingWith, hs, Bool.or_eq_false_iff] at hq
  exact hq.2

/-- A command without a write to come issues none and stays so. -/
theorem Scope.Quiet.step {s t : Scope} {l : ScopeLabel} (hq : s.Quiet) (hstep : s.Step l t) :
    l ≠ .write ∧ t.Quiet := by
  cases hstep with
  | newHandler hs =>
    refine ⟨by decide, ?_⟩
    have hissues := hq.issues hs
    simp only [Mapache.issues] at hissues
    simp only [Scope.Quiet, Scope.pendingWith, hq.background, bne_self_eq_false, Bool.false_or]
    rw [Scope.interrupted_of_handlers (s := s) (h := .new) rfl]
    exact hissues
  | @addLock o moved rest h hs hh =>
    refine ⟨by decide, hq.next hs rfl rfl ?_ id⟩
    have hflag : h.interrupted = s.interrupted o := by simp [Scope.interrupted, hh]
    rw [Scope.interrupted_of_handlers (s := s) (h := { h with locks := true }) rfl]
    exact (congrArg _ hflag).trans (Function.update_eq_self o s.interrupted)
  | write hs | spawn hs =>
    have hissues := hq.issues hs
    exact absurd hissues (by simp [Mapache.issues])
  | worker hb =>
    rw [hq.background] at hb
    exact absurd hb (by omega)
  | join hs _ => exact ⟨by decide, hq.next hs rfl rfl rfl id⟩
  | checkPass hs hh hflag =>
    refine ⟨by decide, hq.next hs rfl rfl rfl ?_⟩
    intro h
    simpa [Mapache.issues, Scope.interrupted, hh, hflag] using h
  | checkStop | leave | callUnlock =>
    exact ⟨by decide, .of_not_body hq.background (fun _ => MainPhase.noConfusion)⟩
  | @dropHandler o rest h hs hh =>
    have hset : (s.setHandler o h.drop).Quiet := hq.setHandler hh id rfl rfl rfl
    have hs' : (s.setHandler o h.drop).main = .body (.dropHandler o :: rest) := by simpa using hs
    exact ⟨by decide, hset.next hs' rfl rfl rfl id⟩
  | unwindHandler _ hh _ | receive hh _ | fire hh _ | reap hh _ =>
    exact ⟨by decide, hq.setHandler hh id rfl rfl rfl⟩
  | unwindClone hm _ _ =>
    exact ⟨by decide, .of_not_body hq.background (fun _ => by rw [hm]; exact MainPhase.noConfusion)⟩
  | exit _ _ => exact ⟨by decide, .of_not_body hq.background (fun _ => MainPhase.noConfusion)⟩
  | signal hh _ => exact ⟨by simp, hq.setHandler hh (fun _ => rfl) rfl rfl rfl⟩
  | handle | stale => exact ⟨by decide, hq⟩

/-- While no release has started, the tasks of the handle only refresh the lock. -/
theorem Scope.Protected.handle_step {s : Scope} {e : HandleEvent Releaser}
    {h' : LockHandle Releaser} (hp : s.Protected) (hcaller : e.byCaller = false)
    (hstep : s.handle.Step e h') :
    Scope.Protected { s with handle := h', locks := s.handle.effect e s.locks } := by
  obtain ⟨hfile, hflag, hidle⟩ := hp
  cases hstep with
  | wakeAlive _ _ => exact ⟨hfile, hflag, hidle⟩
  | wakeReleased _ hcleared => exact absurd (hflag.symm.trans hcleared) Bool.noConfusion
  | stamp now _ => exact ⟨hfile, hflag, hidle⟩
  | save _ =>
    refine ⟨?_, hflag, hidle⟩
    simp only [LockHandle.effect, AList.lookup_insert]
    rfl
  | saveFail _ => exact ⟨hfile, hflag, hidle⟩
  | call r _ => exact absurd hcaller Bool.noConfusion
  | trigger r _ _ _ => exact absurd hcaller Bool.noConfusion
  | acquire r hr _ | swapSet r hr _ | swapClear r hr _ | delete r hr | deleteFail r hr
  | finish r hr =>
    rw [hidle r] at hr
    exact absurd hr ReleasePhase.noConfusion

/-- A handler that is alive and not interrupted may be put in place. -/
theorem Scope.Safe.set_handler {s t : Scope} (hs : s.Safe) {o : Owner} {h : CleanupHandler}
    (hmain : ∃ stmts, t.main = .body stmts) (hhandle : t.handle = s.handle)
    (hlocks : t.locks = s.locks) (hhandlers : t.handlers = Function.update s.handlers o (some h))
    (hh : h.owned = true ∧ h.interrupted = false ∧ (h.task = .waiting ∨ h.task = .received)) :
    t.Safe := by
  refine ⟨?_, ?_, hmain⟩
  · unfold Scope.Protected
    rw [hhandle, hlocks]
    exact hs.held
  · intro o' h' ho'
    rw [hhandlers] at ho'
    by_cases heq : o' = o
    · subst heq
      rw [Function.update_self] at ho'
      exact Option.some.inj ho' ▸ hh
    · rw [Function.update_of_ne heq] at ho'
      exact hs.handlers o' h' ho'

/-- While the lock is held, a step that does not give it away too early keeps it held, or leaves
nothing to write. -/
theorem Scope.Safe.step {s t : Scope} {l : ScopeLabel} (hs : s.Safe) (hok : GivesUpLast s l)
    (hstep : s.Step l t) : t.Safe ∨ t.Quiet := by
  obtain ⟨stmts, hbody⟩ := hs.running
  cases hstep with
  | newHandler hm =>
    exact Or.inl (hs.set_handler ⟨_, rfl⟩ rfl rfl rfl ⟨rfl, rfl, Or.inl rfl⟩)
  | addLock hm hh =>
    obtain ⟨howned, hflag, htask⟩ := hs.handlers _ _ hh
    exact Or.inl (hs.set_handler ⟨_, rfl⟩ rfl rfl rfl ⟨howned, hflag, htask⟩)
  | write | spawn | join | checkPass => exact Or.inl ⟨hs.held, hs.handlers, _, rfl⟩
  | worker hb => exact Or.inl ⟨hs.held, hs.handlers, hs.running⟩
  | checkStop hm hh hflag =>
    have hclear := (hs.handlers _ _ hh).2.1
    exact absurd (hclear.symm.trans hflag) Bool.noConfusion
  | dropHandler hm hh =>
    have hquiet : s.Quiet := hok
    exact Or.inr (hquiet.step (.dropHandler hm hh)).2
  | leave hm => exact Or.inr (.of_not_body hok (fun _ => MainPhase.noConfusion))
  | unwindHandler hm _ _ | unwindClone hm _ _ | callUnlock hm _ _ | exit hm _ =>
    exact absurd (hbody.symm.trans hm) MainPhase.noConfusion
  | @receive o h hh _ =>
    obtain ⟨howned, hflag, _⟩ := hs.handlers _ _ hh
    rw [Scope.setHandler_of_owned s o { h with task := .received } howned]
    exact Or.inl (hs.set_handler hs.running rfl rfl rfl ⟨howned, hflag, Or.inr rfl⟩)
  | @signal o h hh _ =>
    -- the flag is stored when the writes that follow are behind a check of it
    refine Or.inr ?_
    simp only [Scope.Quiet, Scope.pendingWith, Scope.setHandler_main,
      Scope.setHandler_background, Scope.setHandler_interrupted]
    exact hok
  | fire hh htask | reap hh htask =>
    obtain ⟨_, _, htask'⟩ := hs.handlers _ _ hh
    rw [htask] at htask'
    rcases htask' with h | h
    · exact absurd h SignalTask.noConfusion
    · exact absurd h SignalTask.noConfusion
  | handle hcaller hst =>
    exact Or.inl ⟨hs.held.handle_step hcaller hst, hs.handlers, hs.running⟩
  | stale =>
    have hquiet : s.Quiet := hok
    exact Or.inr (hquiet.step .stale).2

theorem Scope.Safe.start (lock : Lock) (cmd : Command) : (Scope.start lock cmd).Safe := by
  refine ⟨⟨?_, rfl, fun _ => rfl⟩, ?_, cmd.body, rfl⟩
  · rw [AList.lookup_isSome]
    exact List.mem_singleton_self _
  · intro o h ho
    cases ho

/-! ## Runs of a command -/

/-- **A command writes under its lock.** In every run of `forget` or `clean` in which nothing gives
the lock away while a write is still to come, each write finds the lock file in place and no release
of the lock started. -/
theorem command_writes_under_lock {lock : Lock} {cmd : Command} {s t : Scope}
    {labels : List ScopeLabel}
    (hrun : Run (Guarded Scope.Step GivesUpLast) (Scope.start lock cmd) labels s)
    (hwrite : s.Step .write t) : s.Protected := by
  have hinv : s.Safe ∨ s.Quiet := by
    refine hrun.invariant (P := fun s => s.Safe ∨ s.Quiet) ?_ (Or.inl (.start lock cmd))
    rintro s l t (hsafe | hquiet) ⟨hst, hok⟩
    · exact hsafe.step hok hst
    · exact Or.inr (hquiet.step hst).2
  rcases hinv with hsafe | hquiet
  · exact hsafe.held
  · exact absurd rfl (hquiet.step hwrite).1

/-- A `clean` that deletes one file, up to that delete. -/
theorem clean_writes_under_lock : ∃ (labels : List ScopeLabel) (s t : Scope),
    Run (Guarded Scope.Step GivesUpLast) (Scope.start soleLock (.clean [.write])) labels s ∧
      s.Step .write t ∧ s.Protected := by
  have h₀ : Run (Guarded Scope.Step GivesUpLast) (Scope.start soleLock (.clean [.write])) [] _ :=
    .nil
  have h₁ := h₀.snoc ⟨.newHandler rfl, trivial⟩
  have h₂ := h₁.snoc ⟨.addLock rfl rfl, trivial⟩
  exact ⟨_, _, _, h₂, .write rfl, command_writes_under_lock h₂ (.write rfl)⟩

/-- `forget --clean` without any signal or failure: the runtime drops the aborted signal task of the
first phase, which drops the last owner of its clone; the release deletes the lock file, and the
garbage collection deletes a file after that. -/
theorem forget_clean_writes_unlocked : ∃ (labels : List ScopeLabel) (s t : Scope),
    Run Scope.Step (Scope.start soleLock (.forget true [] [.write])) labels s ∧
      (∀ l ∈ labels, l = .internal ∨ l = .dropHandler) ∧ s.Step .write t ∧
      s.locks.lookup soleLock.id = none ∧ s.handle.aliveFlag = false := by
  have h₁ := Run.snoc (.nil (s := Scope.start soleLock (.forget true [] [.write])))
    (Scope.Step.newHandler rfl)
  have h₂ := h₁.snoc (.addLock rfl rfl)
  have h₃ := h₂.snoc (.checkPass rfl rfl rfl)
  have h₄ := h₃.snoc (.dropHandler rfl rfl)
  have h₅ := h₄.snoc (.reap (o := .forget) rfl rfl)
  have h₆ := h₅.snoc (.handle rfl (.acquire (.handles .forget) rfl rfl))
  have h₇ := h₆.snoc (.handle rfl (.swapSet (.handles .forget) rfl rfl))
  have h₈ := h₇.snoc (.handle rfl (.delete (.handles .forget) rfl))
  have h₉ := h₈.snoc (.newHandler rfl)
  have h₁₀ := h₉.snoc (.addLock rfl rfl)
  exact ⟨_, _, _, h₁₀, by decide, .write rfl, by decide, rfl⟩

end Mapache
