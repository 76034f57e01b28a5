import Mapache.Backend.LocalWrite
import Mapache.Lib.ActOnce
import Mapache.Lib.Bytes
import Mapache.Lib.SingleFlight

/-!
# The cache in front of a backend

`CacheBackend` keeps local copies of some files. A read that finds no copy downloads the file, and
only one task downloads a file at a time: the others find it `Downloading` in the queue and wait for
a notification. A write goes to the backend and then to the cache, a removal to the cache and then
to the backend; a removal waits for a download of its file before it starts.

The calls are tasks that take one step at a time: an operation of the cache or of the backend, one
stay in the lock of the queue, the creation of the `notified()` future, or a notification. A future
sees every notification after its creation, and a task creates it after it has left the lock. When
no notification falls in between, a task that waits is always still to be notified, and a file that
is read by any number of tasks is downloaded once (`cache_file_waits_and_reads_once`). A
notification in between is lost (`missed_notification`).
-/

set_option autoImplicit false

namespace Mapache

open Lib Lib.SingleFlight

/-! ## Calls -/

/-- `ContentIdType`. -/
inductive ContentIdType where
  | pack
  | snapshot
  | index
  | key
  | lock
  deriving DecidableEq

/-- `StorageHint`. -/
structure StorageHint where
  fileType : ContentIdType
  isMetadata : Bool
  deriving DecidableEq

/-- `Handle`. -/
structure Handle where
  path : Path
  hint : Option StorageHint
  deriving DecidableEq

/-- `Path::extension().is_some()`. -/
def hasExtension (path : Path) : Bool :=
  match fileName path with
  | none => false
  | some name => fileStem name ≠ name

/-- `CacheBackend::should_cache`. -/
def shouldCache (handle : Handle) : Bool :=
  if hasExtension handle.path then false
  else
    match handle.hint with
    | none => false
    | some hint =>
      match hint.fileType with
      | .snapshot | .index => true
      | .pack => hint.isMetadata
      | _ => false

/-- `resolve_read_offset`. -/
def resolveReadOffset (fileSize : Nat) (offset : Int) : Nat :=
  if 0 ≤ offset then offset.toNat else fileSize - offset.natAbs

/-- What `read(handle, offset, length)` of a backend returns of a file. -/
def readAt (data : Bytes) (offset : Int) (length : Nat) : Bytes :=
  readRange data (resolveReadOffset data.length offset) length

/-- A call of the backend. -/
inductive CacheCall where
  | read (handle : Handle) (offset : Int) (length : Nat)
  | write (handle : Handle) (contents : Bytes)
  | remove (path : Path)
  deriving DecidableEq

def CacheCall.path : CacheCall → Path
  | .read handle _ _ => handle.path
  | .write handle _ => handle.path
  | .remove path => path

/-- What a call returns. -/
inductive CacheResult where
  | data (bytes : Bytes)
  | done
  | failed
  deriving DecidableEq

/-- `DownloadState`. -/
inductive DownloadState where
  | downloading
  | failed
  deriving DecidableEq

/-- Where the task of a call stands. -/
inductive CacheTask where
  | idle
  | begun (call : CacheCall)
  /-- It is about to look at the queue, in `cache_file` or in `remove`. -/
  | looking (call : CacheCall)
  /-- It has found the file `Downloading`. -/
  | mustWait (call : CacheCall)
  /-- The `notified()` future is there. -/
  | suspended (call : CacheCall)
  /-- It has inserted `Downloading`. -/
  | claimed (call : CacheCall)
  /-- The file is not cached. -/
  | downloading (call : CacheCall)
  | storing (call : CacheCall) (data : Bytes)
  /-- The download is over, and its state is still in the queue. -/
  | finishing (call : CacheCall) (ok : Bool)
  | notifying (call : CacheCall) (ok : Bool)
  /-- `cache_file` has returned. -/
  | rereading (call : CacheCall)
  /-- A write that has written to the backend. -/
  | writingCache (call : CacheCall)
  /-- A removal that has found no download. -/
  | clearing (call : CacheCall)
  /-- A removal that has removed the cached copy. -/
  | removing (call : CacheCall)
  | returned (call : CacheCall) (result : CacheResult)
  deriving DecidableEq

/-- How a waiting task goes on after a notification. -/
def CacheTask.wake : CacheTask → CacheTask
  | .suspended call => .looking call
  | task => task

/-- The stores, the queue and the tasks. `reads` counts how often a file of the backend was read,
and `last` is what was written to it last; neither is there in the code. -/
structure CacheBackend (ι : Type) where
  backend : Path → Option Bytes
  cache : Path → Option Bytes
  downloadQueue : Path → Option DownloadState
  tasks : ι → CacheTask
  reads : Path → Nat
  last : Path → Option Bytes

/-- What a step does. -/
inductive CacheLabel (ι : Type) where
  | start (t : ι) (call : CacheCall)
  /-- A read takes the cached copy. -/
  | hit (path : Path) (data : Bytes)
  /-- A read takes the file of the backend. -/
  | direct (path : Path) (data : Bytes)
  | claim (path : Path)
  | pass (path : Path)
  | notify (path : Path)
  /-- An operation fails for another reason than that the file is not there. -/
  | fail
  | other

namespace CacheBackend

variable {ι : Type}

/-- Files with their cached copies, and no calls yet. -/
def start (backend cache : Path → Option Bytes) : CacheBackend ι :=
  ⟨backend, cache, fun _ => none, fun _ => .idle, fun _ => 0, backend⟩

section Steps

variable [DecidableEq ι]

def setTask (s : CacheBackend ι) (t : ι) (task : CacheTask) : CacheBackend ι :=
  { s with tasks := Function.update s.tasks t task }

/-- `download_notify.notify_waiters()`. -/
def notifyWaiters (s : CacheBackend ι) : CacheBackend ι :=
  { s with tasks := fun t => (s.tasks t).wake }

def setQueue (s : CacheBackend ι) (path : Path) (state : Option DownloadState) : CacheBackend ι :=
  { s with downloadQueue := Function.update s.downloadQueue path state }

def setCache (s : CacheBackend ι) (path : Path) (data : Option Bytes) : CacheBackend ι :=
  { s with cache := Function.update s.cache path data }

def setBackend (s : CacheBackend ι) (path : Path) (data : Option Bytes) : CacheBackend ι :=
  { s with backend := Function.update s.backend path data }

def countRead (s : CacheBackend ι) (path : Path) : CacheBackend ι :=
  { s with reads := Function.update s.reads path (s.reads path + 1) }

def setLast (s : CacheBackend ι) (path : Path) (data : Bytes) : CacheBackend ι :=
  { s with last := Function.update s.last path (some data) }

/-- A step of one task. -/
inductive Step : CacheBackend ι → CacheLabel ι → CacheBackend ι → Prop where
  | start {s : CacheBackend ι} {t : ι} {c : CacheCall} : s.tasks t = .idle →
      Step s (.start t c) (s.setTask t (.begun c))
  -- `read`
  | direct {s : CacheBackend ι} {t : ι} {h : Handle} {off : Int} {len : Nat} {data : Bytes} :
      s.tasks t = .begun (.read h off len) → shouldCache h = false →
      s.backend h.path = some data →
      Step s (.direct h.path data) ((s.countRead h.path).setTask t
        (.returned (.read h off len) (.data (readAt data off len))))
  | directNotFound {s : CacheBackend ι} {t : ι} {h : Handle} {off : Int} {len : Nat} :
      s.tasks t = .begun (.read h off len) → shouldCache h = false → s.backend h.path = none →
      Step s .other ((s.countRead h.path).setTask t (.returned (.read h off len) .failed))
  | directFail {s : CacheBackend ι} {t : ι} {h : Handle} {off : Int} {len : Nat} :
      s.tasks t = .begun (.read h off len) → shouldCache h = false →
      Step s .fail ((s.countRead h.path).setTask t (.returned (.read h off len) .failed))
  | hit {s : CacheBackend ι} {t : ι} {h : Handle} {off : Int} {len : Nat} {d : Bytes} :
      s.tasks t = .begun (.read h off len) → shouldCache h = true → s.cache h.path = some d →
      Step s (.hit h.path d)
        (s.setTask t (.returned (.read h off len) (.data (readAt d off len))))
  | miss {s : CacheBackend ι} {t : ι} {h : Handle} {off : Int} {len : Nat} :
      s.tasks t = .begun (.read h off len) → shouldCache h = true → s.cache h.path = none →
      Step s .other (s.setTask t (.looking (.read h off len)))
  | missFail {s : CacheBackend ι} {t : ι} {h : Handle} {off : Int} {len : Nat} :
      s.tasks t = .begun (.read h off len) → shouldCache h = true →
      Step s .fail (s.setTask t (.looking (.read h off len)))
  -- the loop in `cache_file` and in `remove`
  | look {s : CacheBackend ι} {t : ι} {call : CacheCall} : s.tasks t = .looking call →
      s.downloadQueue call.path = some .downloading → Step s .other (s.setTask t (.mustWait call))
  | notified {s : CacheBackend ι} {t : ι} {call : CacheCall} : s.tasks t = .mustWait call →
      Step s .other (s.setTask t (.suspended call))
  | claim {s : CacheBackend ι} {t : ι} {h : Handle} {off : Int} {len : Nat} :
      s.tasks t = .looking (.read h off len) → s.downloadQueue h.path ≠ some .downloading →
      Step s (.claim h.path)
        ((s.setQueue h.path (some .downloading)).setTask t (.claimed (.read h off len)))
  | pass {s : CacheBackend ι} {t : ι} {p : Path} : s.tasks t = .looking (.remove p) →
      s.downloadQueue p ≠ some .downloading →
      Step s (.pass p) ((s.setQueue p none).setTask t (.clearing (.remove p)))
  -- the rest of `cache_file`
  | cached {s : CacheBackend ι} {t : ι} {call : CacheCall} : s.tasks t = .claimed call →
      s.cache call.path ≠ none →
      Step s (.notify call.path)
        ((s.setQueue call.path none).notifyWaiters.setTask t (.rereading call))
  | absent {s : CacheBackend ι} {t : ι} {call : CacheCall} : s.tasks t = .claimed call →
      s.cache call.path = none → Step s .other (s.setTask t (.downloading call))
  | absentFail {s : CacheBackend ι} {t : ι} {call : CacheCall} : s.tasks t = .claimed call →
      Step s .fail (s.setTask t (.downloading call))
  | fetch {s : CacheBackend ι} {t : ι} {call : CacheCall} {data : Bytes} :
      s.tasks t = .downloading call → s.backend call.path = some data →
      Step s .other ((s.countRead call.path).setTask t (.storing call data))
  | fetchNotFound {s : CacheBackend ι} {t : ι} {call : CacheCall} :
      s.tasks t = .downloading call → s.backend call.path = none →
      Step s .other ((s.countRead call.path).setTask t (.finishing call false))
  | fetchFail {s : CacheBackend ι} {t : ι} {call : CacheCall} : s.tasks t = .downloading call →
      Step s .fail ((s.countRead call.path).setTask t (.finishing call false))
  | store {s : CacheBackend ι} {t : ι} {call : CacheCall} {data : Bytes} :
      s.tasks t = .storing call data →
      Step s .other ((s.setCache call.path (some data)).setTask t (.finishing call true))
  | storeFail {s : CacheBackend ι} {t : ι} {call : CacheCall} {data : Bytes} :
      s.tasks t = .storing call data → Step s .fail (s.setTask t (.finishing call false))
  | finish {s : CacheBackend ι} {t : ι} {call : CacheCall} {ok : Bool} :
      s.tasks t = .finishing call ok →
      Step s .other ((s.setQueue call.path (if ok then none else some .failed)).setTask t
        (.notifying call ok))
  | notify {s : CacheBackend ι} {t : ι} {call : CacheCall} {ok : Bool} :
      s.tasks t = .notifying call ok →
      Step s (.notify call.path) (s.notifyWaiters.setTask t
        (if ok then .rereading call else .returned call .failed))
  | reread {s : CacheBackend ι} {t : ι} {h : Handle} {off : Int} {len : Nat} {data : Bytes} :
      s.tasks t = .rereading (.read h off len) → s.cache h.path = some data →
      Step s (.hit h.path data)
        (s.setTask t (.returned (.read h off len) (.data (readAt data off len))))
  | rereadNotFound {s : CacheBackend ι} {t : ι} {call : CacheCall} : s.tasks t = .rereading call →
      s.cache call.path = none → Step s .other (s.setTask t (.returned call .failed))
  | rereadFail {s : CacheBackend ι} {t : ι} {call : CacheCall} : s.tasks t = .rereading call →
      Step s .fail (s.setTask t (.returned call .failed))
  -- `write`
  | writeBackend {s : CacheBackend ι} {t : ι} {h : Handle} {data : Bytes} :
      s.tasks t = .begun (.write h data) →
      Step s .other (((s.setBackend h.path (some data)).setLast h.path data).setTask t
        (if shouldCache h then .writingCache (.write h data) else .returned (.write h data) .done))
  | writeBackendFail {s : CacheBackend ι} {t : ι} {h : Handle} {data : Bytes} :
      s.tasks t = .begun (.write h data) →
      Step s .fail (s.setTask t (.returned (.write h data) .failed))
  | writeCache {s : CacheBackend ι} {t : ι} {h : Handle} {data : Bytes} :
      s.tasks t = .writingCache (.write h data) →
      Step s .other ((s.setCache h.path (some data)).setTask t (.returned (.write h data) .done))
  | writeCacheFail {s : CacheBackend ι} {t : ι} {h : Handle} {data : Bytes} :
      s.tasks t = .writingCache (.write h data) →
      Step s .fail (s.setTask t (.returned (.write h data) .failed))
  -- `remove`
  | remove {s : CacheBackend ι} {t : ι} {p : Path} : s.tasks t = .begun (.remove p) →
      Step s .other (s.setTask t (.looking (.remove p)))
  | clear {s : CacheBackend ι} {t : ι} {p : Path} : s.tasks t = .clearing (.remove p) →
      Step s .other ((s.setCache p none).setTask t (.removing (.remove p)))
  | clearFail {s : CacheBackend ι} {t : ι} {p : Path} : s.tasks t = .clearing (.remove p) →
      Step s .fail (s.setTask t (.returned (.remove p) .failed))
  -- a file that is not there is `Ok` too
  | removeBackend {s : CacheBackend ι} {t : ι} {p : Path} : s.tasks t = .removing (.remove p) →
      Step s .other ((s.setBackend p none).setTask t (.returned (.remove p) .done))
  -- another removal has deleted the file since `LocalFS` looked for it
  | removeNotFound {s : CacheBackend ι} {t : ι} {p : Path} : s.tasks t = .removing (.remove p) →
      s.backend p = none → Step s .other (s.setTask t (.returned (.remove p) .failed))
  | removeFail {s : CacheBackend ι} {t : ι} {p : Path} : s.tasks t = .removing (.remove p) →
      Step s .fail (s.setTask t (.returned (.remove p) .failed))

end Steps

end CacheBackend

/-! ## The queue -/

/-- What a task is to those that wait for its file. -/
def CacheTask.role : CacheTask → Role Path
  | .mustWait call => .looked call.path
  | .suspended call => .waiting call.path
  | .claimed call | .downloading call | .storing call _ | .finishing call _ => .working call.path
  | .notifying call _ => .leaving call.path
  | _ => .out

/-- The path for which a step notifies. -/
def CacheLabel.notifies {ι : Type} : CacheLabel ι → Option Path
  | .notify path => some path
  | _ => none

theorem CacheTask.role_wake (task : CacheTask) : task.wake.role = task.role.wake := by
  cases task <;> rfl

namespace CacheBackend

variable {ι : Type} [DecidableEq ι] {s s' : CacheBackend ι} {l : CacheLabel ι} {t : ι}

/-- The tasks as those of one download at a time. -/
def flight (s : CacheBackend ι) : SingleFlight.State ι Path :=
  ⟨fun t => (s.tasks t).role, fun p => s.downloadQueue p = some .downloading⟩

theorem setTask_self (s : CacheBackend ι) (t : ι) (task : CacheTask) :
    (s.setTask t task).tasks t = task :=
  Function.update_self (β := fun _ => CacheTask) t task s.tasks

theorem setTask_other (s : CacheBackend ι) {t u : ι} (task : CacheTask) (h : u ≠ t) :
    (s.setTask t task).tasks u = s.tasks u :=
  Function.update_of_ne (β := fun _ => CacheTask) h task s.tasks

theorem role_setTask (s : CacheBackend ι) (t : ι) (task : CacheTask) :
    (s.setTask t task).flight.role = Function.update s.flight.role t task.role := by
  funext u
  by_cases heq : u = t
  · rw [heq, Function.update_self]
    exact congrArg CacheTask.role (s.setTask_self t task)
  · rw [Function.update_of_ne heq]
    exact congrArg CacheTask.role (s.setTask_other task heq)

/-- A task that stays what it is to the others. -/
theorem role_stays (s : CacheBackend ι) {t : ι} {task : CacheTask}
    (h : task.role = (s.tasks t).role) : (s.setTask t task).flight.role = s.flight.role := by
  rw [role_setTask, h]
  exact Function.update_eq_self t s.flight.role

omit [DecidableEq ι] in
theorem role_notifyWaiters (s : CacheBackend ι) :
    s.notifyWaiters.flight.role = fun u => (s.flight.role u).wake := by
  funext u
  exact (s.tasks u).role_wake

/-- The queue after the state of one path is set. -/
theorem taken_update (queue : Path → Option DownloadState) (p q : Path)
    (state : Option DownloadState) :
    Function.update queue p state q = some .downloading ↔
      (q = p ∧ state = some .downloading) ∨ (q ≠ p ∧ queue q = some .downloading) := by
  by_cases heq : q = p
  · rw [heq, Function.update_self]
    simp
  · rw [Function.update_of_ne heq]
    simp [heq]

/-- **The tasks download one at a time.** -/
theorem Step.flight (h : Step s l s') : SingleFlight.Step s.flight s'.flight l.notifies := by
  have hstay : ∀ (r : CacheBackend ι) (t : ι) (task : CacheTask), r.tasks = s.tasks →
      r.downloadQueue = s.downloadQueue → task.role = (s.tasks t).role →
      SingleFlight.Step s.flight (r.setTask t task).flight none := by
    intro r t task htasks hqueue hrole
    refine .stay ?_ fun p => ?_
    · rw [role_stays r (by rw [htasks, hrole])]
      show (fun u => (r.tasks u).role) = _
      rw [htasks]
      rfl
    · show r.downloadQueue p = _ ↔ _
      rw [hqueue]
      rfl
  have hrole : ∀ {t : ι} {task : CacheTask}, s.tasks t = task → s.flight.role t = task.role := by
    rintro t _ rfl
    rfl
  cases h with
  | start ht | hit ht _ _ | miss ht _ _ | missFail ht _ | absent ht _ | absentFail ht
  | storeFail ht | reread ht _ | rereadNotFound ht _ | rereadFail ht | writeBackendFail ht
  | writeCacheFail ht | remove ht | clearFail ht | removeNotFound ht _ | removeFail ht =>
    exact hstay s _ _ rfl rfl (by rw [ht]; rfl)
  | direct ht _ _ | directNotFound ht _ _ | directFail ht _ | fetch ht _ | fetchNotFound ht _
  | fetchFail ht => exact hstay (s.countRead _) _ _ rfl rfl (by rw [ht]; rfl)
  | look ht hqueue =>
    exact .look _ _ (hrole ht) hqueue (role_setTask s _ _) fun _ => Iff.rfl
  | notified ht => exact .register _ _ (hrole ht) (role_setTask s _ _) fun _ => Iff.rfl
  | @claim t h off len ht hqueue =>
    refine .enter t h.path (hrole ht) hqueue (role_setTask (s.setQueue _ _) _ _) fun p => ?_
    refine (taken_update s.downloadQueue h.path p _).trans ?_
    by_cases heq : p = h.path
    · simp [heq]
    · simp [heq, CacheBackend.flight]
  | @pass t p ht hqueue =>
    refine .stay ?_ fun q => ?_
    · rw [role_stays (s.setQueue p none) (by rw [show (s.setQueue p none).tasks t = _ from ht]; rfl)]
      rfl
    · refine (taken_update s.downloadQueue p q _).trans ?_
      by_cases heq : q = p
      · subst heq
        simpa [CacheBackend.flight] using hqueue
      · simp [heq, CacheBackend.flight]
  | @cached t call ht _ =>
    refine .releaseAndNotify t call.path (hrole ht) ?_ fun p => ?_
    · rw [role_setTask, role_notifyWaiters]
      rfl
    · refine (taken_update s.downloadQueue call.path p _).trans ?_
      simp [CacheBackend.flight]
  | store ht | writeCache ht | clear ht =>
    exact hstay (s.setCache _ _) _ _ rfl rfl (by rw [ht]; rfl)
  | @finish t call ok ht =>
    refine .release t call.path (hrole ht) (role_setTask (s.setQueue _ _) _ _) fun p => ?_
    refine (taken_update s.downloadQueue call.path p _).trans ?_
    cases ok <;> simp [CacheBackend.flight]
  | @notify t call ok ht =>
    refine .notify t call.path (hrole ht) ?_ fun _ => Iff.rfl
    rw [role_setTask, role_notifyWaiters]
    cases ok <;> rfl
  | @writeBackend t h data ht =>
    refine hstay ((s.setBackend _ _).setLast _ _) _ _ rfl rfl ?_
    rw [ht]
    cases shouldCache h <;> rfl
  | removeBackend ht => exact hstay (s.setBackend _ _) _ _ rfl rfl (by rw [ht]; rfl)

omit [DecidableEq ι] in
theorem inv_start (backend cache : Path → Option Bytes) :
    SingleFlight.Inv (start backend cache : CacheBackend ι).flight where
  working := by
    intro t p ht
    cases ht
  taken := by
    intro p hp
    cases hp
  alone := by
    intro t t' p ht
    cases ht

/-- The condition on a notification: no task has found its file `Downloading` without having created
its future yet. -/
def Heard (s : CacheBackend ι) (l : CacheLabel ι) : Prop :=
  ∀ p, l = .notify p → ∀ t call, s.tasks t = .mustWait call → call.path ≠ p

omit [DecidableEq ι] in
theorem Heard.flight (h : Heard s l) : SingleFlight.Heard s.flight l.notifies := by
  intro p hp t ht
  have hl : l = .notify p := by
    cases l with
    | notify q =>
      cases hp
      rfl
    | _ => cases hp
  have hrole : (s.tasks t).role = .looked p := ht
  cases htask : s.tasks t with
  | mustWait call =>
    rw [htask] at hrole
    cases hrole
    exact h _ hl t call htask rfl
  | _ =>
    rw [htask] at hrole
    cases hrole

/-- The task has inserted `Downloading` for the path and has not notified yet. -/
def Owes (s : CacheBackend ι) (t : ι) (p : Path) : Prop :=
  s.flight.Owes t p

/-- Nobody waits for a notification that has been sent. -/
theorem waiting_is_owed {backend cache : Path → Option Bytes} {ls : List (CacheLabel ι)}
    (hrun : Run (Guarded Step Heard) (start backend cache) ls s) {call : CacheCall}
    (ht : s.tasks t = .suspended call) : ∃ t', t' ≠ t ∧ Owes s t' call.path := by
  have hboth : SingleFlight.Inv s.flight ∧ Served s.flight := by
    refine hrun.invariant (P := fun s => SingleFlight.Inv s.flight ∧ Served s.flight)
      (fun s l s' h hstep => ?_) ⟨inv_start backend cache, ?_⟩
    · exact ⟨h.1.step hstep.1.flight, h.2.step h.1 hstep.1.flight hstep.2.flight⟩
    · rintro t p (ht | ht) <;> cases ht
  have hrole : s.flight.role t = .waiting call.path := by
    show (s.tasks t).role = _
    rw [ht]
    rfl
  obtain ⟨t', hown⟩ := hboth.2 t call.path (Or.inr hrole)
  refine ⟨t', ?_, hown⟩
  rintro rfl
  rcases hown with hown | hown <;> rw [hrole] at hown <;> cases hown

/-! ## One download -/

/-- A read of a file that may be cached. -/
def IsCachedRead (call : CacheCall) : Prop :=
  ∃ h off len, call = .read h off len ∧ shouldCache h = true

/-- Nothing fails, and the calls on the path are reads that may use the cache. -/
def ReadsOnly (p : Path) (l : CacheLabel ι) : Prop :=
  l ≠ .fail ∧ ∀ t call, l = .start t call → call.path = p → IsCachedRead call

/-- The stage of a download of the path. -/
def stage (p : Path) : CacheTask → ActOnce.Stage
  | .downloading call => if call.path = p then .entered else .out
  | .storing call _ => if call.path = p then .acted else .out
  | _ => .out

/-- The tasks as those that download the path: a cached copy is the mark. -/
def downloads (p : Path) (s : CacheBackend ι) : ActOnce.State ι :=
  ⟨fun t => stage p (s.tasks t), s.reads p, s.cache p ≠ none⟩

/-- What a task with a call on the path knows. -/
def Knows (p : Path) (s : CacheBackend ι) : CacheTask → Prop
  | .idle => True
  | .storing call _ | .returned call _ => call.path = p → IsCachedRead call ∧ 0 < s.reads p
  | .finishing call ok | .notifying call ok =>
    call.path = p → IsCachedRead call ∧ ok = true ∧ s.cache p ≠ none
  | .rereading call => call.path = p → IsCachedRead call ∧ s.cache p ≠ none
  | .begun call | .looking call | .mustWait call | .suspended call | .claimed call
  | .downloading call | .writingCache call | .clearing call | .removing call =>
    call.path = p → IsCachedRead call

/-- What the steps keep while the path is only read. -/
structure ReadOnce (p : Path) (s : CacheBackend ι) : Prop where
  there : s.backend p ≠ none
  knows : ∀ t, Knows p s (s.tasks t)
  cached : s.cache p ≠ none → 0 < s.reads p
  once : ActOnce.Inv (downloads p s)

section ReadOnce

variable {p : Path} {r : CacheBackend ι} {task : CacheTask}

omit [DecidableEq ι] in
theorem Knows.mono (h : Knows p s task) (hcache : s.cache p ≠ none → r.cache p ≠ none)
    (hreads : s.reads p ≤ r.reads p) : Knows p r task := by
  cases task with
  | idle => trivial
  | storing | returned => exact fun hp => ⟨(h hp).1, (h hp).2.trans_le hreads⟩
  | finishing | notifying => exact fun hp => ⟨(h hp).1, (h hp).2.1, hcache (h hp).2.2⟩
  | rereading call => exact fun hp => ⟨(h hp).1, hcache (h hp).2⟩
  | _ => exact h

omit [DecidableEq ι] in
theorem Knows.wake (h : Knows p s task) : Knows p s task.wake := by
  cases task <;> exact h

theorem stage_wake : stage p task.wake = stage p task := by
  cases task <;> rfl

theorem downloads_stage (s : CacheBackend ι) (t : ι) (task : CacheTask) :
    (downloads p (s.setTask t task)).stage = Function.update (downloads p s).stage t
    (stage p task) := by
  funext u
  by_cases heq : u = t
  · rw [heq, Function.update_self]
    exact congrArg (stage p) (s.setTask_self t task)
  · rw [Function.update_of_ne heq]
    exact congrArg (stage p) (s.setTask_other task heq)

/-- One task moves, and the others may be woken. -/
theorem ReadOnce.move (h : ReadOnce p s)
    (htasks : ∀ u, r.tasks u = s.tasks u ∨ r.tasks u = (s.tasks u).wake)
    (hbackend : r.backend p = s.backend p) (hcache : s.cache p ≠ none → r.cache p ≠ none)
    (hreads : s.reads p ≤ r.reads p) (hknows : Knows p r task)
    (hcached : r.cache p ≠ none → 0 < r.reads p)
    (honce : ActOnce.Step (downloads p s) (downloads p (r.setTask t task))) :
    ReadOnce p (r.setTask t task) where
  there := by
    show r.backend p ≠ none
    rw [hbackend]
    exact h.there
  knows := by
    intro u
    by_cases heq : u = t
    · rw [heq, setTask_self]
      exact hknows
    · rw [setTask_other r task heq]
      have hold := (h.knows u).mono (r := r) hcache hreads
      rcases htasks u with hu | hu
      · rw [hu]
        exact hold
      · rw [hu]
        exact hold.wake
  cached := hcached
  once := h.once.step honce

/-- The task moves without a download of the path. -/
theorem ReadOnce.stay (h : ReadOnce p s)
    (htasks : ∀ u, r.tasks u = s.tasks u ∨ r.tasks u = (s.tasks u).wake)
    (hbackend : r.backend p = s.backend p) (hcache : r.cache p = s.cache p)
    (hreads : r.reads p = s.reads p) (hknows : Knows p s task)
    (hstage : stage p task = stage p (s.tasks t)) : ReadOnce p (r.setTask t task) := by
  refine h.move htasks hbackend (fun hc => by rwa [hcache]) hreads.ge
    (hknows.mono (fun hc => by rwa [hcache]) hreads.ge) ?_ (.stay ?_ hreads ?_)
  · rw [hcache, hreads]
    exact h.cached
  · have hold : (downloads p r).stage = (downloads p s).stage := by
      funext u
      show stage p (r.tasks u) = stage p (s.tasks u)
      rcases htasks u with hu | hu
      · rw [hu]
      · rw [hu, stage_wake]
    rw [downloads_stage, hold, hstage]
    exact Function.update_eq_self t (downloads p s).stage
  · show s.cache p ≠ none → r.cache p ≠ none
    rw [hcache]
    exact id

omit [DecidableEq ι] in
/-- What a task knows. -/
theorem ReadOnce.knows_of (h : ReadOnce p s) (ht : s.tasks t = task) : Knows p s task := by
  subst ht
  exact h.knows t

theorem not_isCachedRead_write {hd : Handle} {data : Bytes} : ¬ IsCachedRead (.write hd data) := by
  rintro ⟨_, _, _, ⟨⟩, -⟩

theorem not_isCachedRead_remove {q : Path} : ¬ IsCachedRead (.remove q) := by
  rintro ⟨_, _, _, ⟨⟩, -⟩

theorem not_isCachedRead_direct {hd : Handle} {off : Int} {len : Nat} (hno : shouldCache hd = false) :
    ¬ IsCachedRead (.read hd off len) := by
  rintro ⟨hd', off', len', heq, hyes⟩
  cases heq
  rw [hno] at hyes
  cases hyes

omit [DecidableEq ι] in
/-- A read of another file is counted elsewhere. -/
theorem reads_countRead_of_ne {q : Path} (hq : q ≠ p) : (s.countRead q).reads p = s.reads p :=
  Function.update_of_ne (Ne.symm hq) _ _

omit [DecidableEq ι] in
theorem reads_countRead_self : (s.countRead p).reads p = s.reads p + 1 :=
  Function.update_self _ _ _

omit [DecidableEq ι] in
/-- A task that downloads the path is at work on it. -/
theorem role_of_stage {u : ι} (hu : stage p (s.tasks u) ≠ .out) :
    s.flight.role u = .working p := by
  show (s.tasks u).role = _
  cases htask : s.tasks u with
  | downloading call =>
    rw [htask, stage] at hu
    split at hu
    · rename_i hp
      rw [CacheTask.role, hp]
    · exact absurd rfl hu
  | storing call _ =>
    rw [htask, stage] at hu
    split at hu
    · rename_i hp
      rw [CacheTask.role, hp]
    · exact absurd rfl hu
  | _ =>
    rw [htask] at hu
    exact absurd rfl hu

/-! #### The cases of a step -/

/-- A read that goes past the cache is not one of the path. -/
theorem ReadOnce.direct {hd : Handle} {off : Int} {len : Nat} {result : CacheResult}
    (h : ReadOnce p s) (ht : s.tasks t = .begun (.read hd off len)) (hno : shouldCache hd = false) :
    ReadOnce p ((s.countRead hd.path).setTask t (.returned (.read hd off len) result)) := by
  have hq : hd.path ≠ p := fun hp => not_isCachedRead_direct hno (h.knows_of ht hp)
  apply h.stay (r := s.countRead hd.path) (fun u => Or.inl rfl) rfl rfl (reads_countRead_of_ne hq)
  · exact fun hp => absurd hp hq
  · rw [ht]
    rfl

/-- The task that has claimed the path finds no copy and enters the download: it is the only task
at work on the path. -/
theorem ReadOnce.absent {call : CacheCall} (h : ReadOnce p s) (hinv : SingleFlight.Inv s.flight)
    (ht : s.tasks t = .claimed call) (hnone : s.cache call.path = none) :
    ReadOnce p (s.setTask t (.downloading call)) := by
  have hknows : Knows p s (.claimed call) := h.knows_of ht
  by_cases hp : call.path = p
  · have hself : s.flight.role t = .working p := by
      show (s.tasks t).role = _
      rw [ht, CacheTask.role, hp]
    have halone : ∀ u, stage p (s.tasks u) = .out := by
      intro u
      by_contra hu
      rw [hinv.alone u t p (role_of_stage hu) hself, ht] at hu
      exact hu rfl
    refine h.move (fun u => Or.inl rfl) rfl id le_rfl hknows h.cached (.enter t halone ?_ ?_ rfl)
    · show ¬ s.cache p ≠ none
      rw [← hp, hnone]
      simp
    · rw [downloads_stage, stage, if_pos hp]
  · apply h.stay (fun u => Or.inl rfl) rfl rfl rfl
    · exact hknows
    · rw [ht]
      exact if_neg hp

/-- The download reads the file. -/
theorem ReadOnce.fetch {call : CacheCall} {data : Bytes} (h : ReadOnce p s)
    (ht : s.tasks t = .downloading call) :
    ReadOnce p ((s.countRead call.path).setTask t (.storing call data)) := by
  have hknows : Knows p s (.downloading call) := h.knows_of ht
  by_cases hp : call.path = p
  · have hcount : (s.countRead call.path).reads p = s.reads p + 1 := by
      rw [hp]
      exact reads_countRead_self
    refine h.move (r := s.countRead call.path) (fun u => Or.inl rfl) rfl id ?_ ?_ ?_
      (.act t ?_ ?_ hcount)
    · rw [hcount]
      exact Nat.le_succ _
    · exact fun hp' => ⟨hknows hp', by rw [hcount]; exact Nat.succ_pos _⟩
    · rw [hcount]
      exact fun _ => Nat.succ_pos _
    · show stage p (s.tasks t) = _
      rw [ht, stage, if_pos hp]
    · rw [downloads_stage, stage, if_pos hp]
      rfl
  · apply h.stay (r := s.countRead call.path) (fun u => Or.inl rfl) rfl rfl (reads_countRead_of_ne hp)
    · exact fun hp' => absurd hp' hp
    · rw [ht]
      exact (if_neg hp).trans (if_neg hp).symm

/-- The file is there, so another one was not found. -/
theorem ReadOnce.fetchNotFound {call : CacheCall} (h : ReadOnce p s)
    (ht : s.tasks t = .downloading call) (hnone : s.backend call.path = none) :
    ReadOnce p ((s.countRead call.path).setTask t (.finishing call false)) := by
  have hp : call.path ≠ p := by
    rintro rfl
    exact h.there hnone
  apply h.stay (r := s.countRead call.path) (fun u => Or.inl rfl) rfl rfl (reads_countRead_of_ne hp)
  · exact fun hp' => absurd hp' hp
  · rw [ht]
    exact (if_neg hp).symm

/-- The download leaves a copy. -/
theorem ReadOnce.store {call : CacheCall} {data : Bytes} (h : ReadOnce p s)
    (ht : s.tasks t = .storing call data) :
    ReadOnce p ((s.setCache call.path (some data)).setTask t (.finishing call true)) := by
  have hknows : Knows p s (.storing call data) := h.knows_of ht
  by_cases hp : call.path = p
  · have hsome : (s.setCache call.path (some data)).cache p ≠ none := by
      have hcache : (s.setCache call.path (some data)).cache p = some data := by
        rw [hp]
        exact Function.update_self _ _ _
      rw [hcache]
      exact Option.some_ne_none data
    refine h.move (r := s.setCache call.path (some data)) (fun u => Or.inl rfl) rfl (fun _ => hsome)
      le_rfl (fun hp' => ⟨(hknows hp').1, rfl, hsome⟩) (fun _ => (hknows hp).2)
      (.leave t ?_ ?_ rfl hsome)
    · show stage p (s.tasks t) = _
      rw [ht, stage, if_pos hp]
    · rw [downloads_stage]
      rfl
  · apply h.stay (r := s.setCache call.path (some data)) (fun u => Or.inl rfl) rfl
      (Function.update_of_ne (Ne.symm hp) _ _) rfl
    · exact fun hp' => absurd hp' hp
    · rw [ht]
      exact (if_neg hp).symm

/-- A download that does not know the path has failed; one of the path has succeeded. -/
theorem ReadOnce.notify {call : CacheCall} {ok : Bool} (h : ReadOnce p s)
    (ht : s.tasks t = .notifying call ok) : ReadOnce p (s.notifyWaiters.setTask t
      (if ok then .rereading call else .returned call .failed)) := by
  have hknows : Knows p s (.notifying call ok) := h.knows_of ht
  cases ok with
  | true =>
    apply h.stay (r := s.notifyWaiters) (fun u => Or.inr rfl) rfl rfl rfl
    · exact fun hp => ⟨(hknows hp).1, (hknows hp).2.2⟩
    · rw [ht]
      rfl
  | false =>
    apply h.stay (r := s.notifyWaiters) (fun u => Or.inr rfl) rfl rfl rfl
    · intro hp
      cases (hknows hp).2.1
    · rw [ht]
      rfl

/-- A write is one of another file. -/
theorem ReadOnce.writeBackend {hd : Handle} {data : Bytes} (h : ReadOnce p s)
    (ht : s.tasks t = .begun (.write hd data)) :
    ReadOnce p (((s.setBackend hd.path (some data)).setLast hd.path data).setTask t
      (if shouldCache hd then .writingCache (.write hd data)
      else .returned (.write hd data) .done)) := by
  have hq : hd.path ≠ p := fun hp => not_isCachedRead_write (h.knows_of ht hp)
  apply h.stay (r := (s.setBackend _ _).setLast _ _) (fun u => Or.inl rfl)
    (Function.update_of_ne (Ne.symm hq) _ _) rfl rfl
  · cases shouldCache hd with
    | true => exact fun hp => absurd hp hq
    | false => exact fun hp => absurd hp hq
  · rw [ht]
    cases shouldCache hd <;> rfl

/-- **One step.** -/
theorem ReadOnce.step (h : ReadOnce p s) (hinv : SingleFlight.Inv s.flight) (hstep : Step s l s')
    (hl : ReadsOnly p l) : ReadOnce p s' := by
  have hsame : ∀ u, s.tasks u = s.tasks u ∨ s.tasks u = (s.tasks u).wake := fun u => Or.inl rfl
  have hwake : ∀ u, (s.tasks u).wake = s.tasks u ∨ (s.tasks u).wake = (s.tasks u).wake :=
    fun u => Or.inr rfl
  cases hstep with
  | @start t call ht =>
    exact h.stay hsame rfl rfl rfl (hl.2 t call rfl) (by rw [ht]; rfl)
  | direct ht hno _ | directNotFound ht hno _ => exact h.direct ht hno
  | @hit t hd off len data ht _ hdata =>
    refine h.stay hsame rfl rfl rfl (fun hp => ⟨h.knows_of ht hp, h.cached ?_⟩) (by rw [ht]; rfl)
    rw [← show hd.path = p from hp, hdata]
    exact Option.some_ne_none data
  | miss ht _ _ | look ht _ | notified ht | remove ht =>
    exact h.stay hsame rfl rfl rfl (fun hp => h.knows_of ht hp) (by rw [ht]; rfl)
  | claim ht _ | pass ht _ | finish ht =>
    exact h.stay (r := s.setQueue _ _) hsame rfl rfl rfl (fun hp => h.knows_of ht hp)
      (by rw [ht]; rfl)
  | @cached t call ht hcached =>
    exact h.stay (r := (s.setQueue _ _).notifyWaiters) hwake rfl rfl rfl
      (fun hp => ⟨h.knows_of ht hp, hp ▸ hcached⟩) (by rw [ht]; rfl)
  | absent ht hnone => exact h.absent hinv ht hnone
  | fetch ht _ => exact h.fetch ht
  | fetchNotFound ht hnone => exact h.fetchNotFound ht hnone
  | store ht => exact h.store ht
  | notify ht => exact h.notify ht
  | reread ht _ =>
    exact h.stay hsame rfl rfl rfl
      (fun hp => ⟨(h.knows_of ht hp).1, h.cached (h.knows_of ht hp).2⟩) (by rw [ht]; rfl)
  | @rereadNotFound t call ht hnone =>
    refine h.stay hsame rfl rfl rfl (fun hp => ?_) (by rw [ht]; rfl)
    rw [show call.path = p from hp] at hnone
    exact absurd hnone (h.knows_of ht hp).2
  | writeBackend ht => exact h.writeBackend ht
  | @writeCache t hd data ht =>
    have hq : hd.path ≠ p := fun hp => not_isCachedRead_write (h.knows_of ht hp)
    exact h.stay (r := s.setCache _ _) hsame rfl (Function.update_of_ne (Ne.symm hq) _ _) rfl
      (fun hp => absurd hp hq) (by rw [ht]; rfl)
  | @clear t q ht =>
    have hq : q ≠ p := fun hp => not_isCachedRead_remove (h.knows_of ht hp)
    exact h.stay (r := s.setCache _ _) hsame rfl (Function.update_of_ne (Ne.symm hq) _ _) rfl
      (fun hp => h.knows_of ht hp) (by rw [ht]; rfl)
  | @removeBackend t q ht =>
    have hq : q ≠ p := fun hp => not_isCachedRead_remove (h.knows_of ht hp)
    exact h.stay (r := s.setBackend _ _) hsame (Function.update_of_ne (Ne.symm hq) _ _) rfl rfl
      (fun hp => absurd hp hq) (by rw [ht]; rfl)
  | @removeNotFound t q ht _ =>
    have hq : q ≠ p := fun hp => not_isCachedRead_remove (h.knows_of ht hp)
    exact h.stay hsame rfl rfl rfl (fun hp => absurd hp hq) (by rw [ht]; rfl)
  -- nothing fails
  | directFail _ _ => exact absurd rfl hl.1
  | missFail _ _ => exact absurd rfl hl.1
  | absentFail _ => exact absurd rfl hl.1
  | fetchFail _ => exact absurd rfl hl.1
  | storeFail _ => exact absurd rfl hl.1
  | rereadFail _ => exact absurd rfl hl.1
  | writeBackendFail _ => exact absurd rfl hl.1
  | writeCacheFail _ => exact absurd rfl hl.1
  | clearFail _ => exact absurd rfl hl.1
  | removeFail _ => exact absurd rfl hl.1

omit [DecidableEq ι] in
theorem ReadOnce.start {backend cache : Path → Option Bytes} (hbackend : backend p ≠ none)
    (hcache : cache p = none) : ReadOnce p (start backend cache : CacheBackend ι) where
  there := hbackend
  knows := fun _ => trivial
  cached := fun h => absurd hcache h
  once := .init (fun _ => rfl) rfl

/-- A file that is only read is downloaded once. -/
theorem reads_once {backend cache : Path → Option Bytes} {ls : List (CacheLabel ι)}
    (hbackend : backend p ≠ none) (hcache : cache p = none)
    (hrun : Run Step (start backend cache) ls s)
    (hls : ∀ l ∈ ls, ReadsOnly p l) :
    s.reads p ≤ 1 ∧ ∀ t call result, s.tasks t = .returned call result → call.path = p →
      s.reads p = 1 := by
  have hboth : SingleFlight.Inv s.flight ∧ ReadOnce p s := by
    refine hrun.invariant_of_labels
      (P := fun s => SingleFlight.Inv s.flight ∧ ReadOnce p s) (Q := ReadsOnly p)
      (fun s l s' hl h hstep => ?_) hls ⟨inv_start backend cache, .start hbackend hcache⟩
    exact ⟨h.1.step hstep.flight, h.2.step h.1 hstep hl⟩
  have hle : s.reads p ≤ 1 := hboth.2.once.once
  refine ⟨hle, fun t call result ht hp => ?_⟩
  have hknows := hboth.2.knows t
  rw [ht] at hknows
  exact le_antisymm hle (hknows hp).2

end ReadOnce

/-- **Waiting and downloading.** In every run in which no notification for a path falls between a
look at the queue and the creation of the future, a task that is suspended has another one that has
claimed its path and has not notified yet. And while a file that is not cached is only read and
nothing fails, the backend reads it at most once, and once when a read has returned. -/
theorem cache_file_waits_and_reads_once (backend cache : Path → Option Bytes)
    (ls : List (CacheLabel ι)) (s : CacheBackend ι) :
    (Run (Guarded Step Heard) (start backend cache) ls s →
      ∀ t call, s.tasks t = .suspended call → ∃ t', t' ≠ t ∧ Owes s t' call.path) ∧
    ∀ p, backend p ≠ none → cache p = none → Run Step (start backend cache) ls s →
      (∀ l ∈ ls, ReadsOnly p l) →
      s.reads p ≤ 1 ∧ ∀ t call result, s.tasks t = .returned call result → call.path = p →
        s.reads p = 1 :=
  ⟨fun hrun _ _ ht => waiting_is_owed hrun ht,
    fun _ hbackend hcache hrun hls => reads_once hbackend hcache hrun hls⟩

/-! ### Two reads of one file -/

/-- The path `a`. -/
def cachedPath : Path := [.normal [97]]

/-- A snapshot with that path. -/
def sampleHandle : Handle := ⟨cachedPath, some ⟨.snapshot, true⟩⟩

/-- A read of it. -/
def sampleRead : CacheCall := .read sampleHandle 0 0

/-- The backend has the file with one byte. -/
def sampleBackend : Path → Option Bytes := fun p => if p = cachedPath then some [7] else none

/-- One read claims the file, and another one waits for it. -/
theorem second_read_waits :
    ∃ (s : CacheBackend Bool) (ls : List (CacheLabel Bool)),
      (Run (Guarded Step Heard) (start sampleBackend fun _ => none) ls s ∧
        (∀ l ∈ ls, ReadsOnly cachedPath l)) ∧
      s.tasks true = .suspended sampleRead ∧ (∃ t', t' ≠ true ∧ Owes s t' cachedPath) ∧
      s.reads cachedPath ≤ 1 := by
  have hheard : ∀ (s : CacheBackend Bool) l, l.notifies = none → Heard s l := by
    rintro s _ hl p rfl
    cases hl
  have hrun : ∃ (s : CacheBackend Bool) (ls : List (CacheLabel Bool)),
      (Run (Guarded Step Heard) (start sampleBackend fun _ => none) ls s ∧
        (∀ l ∈ ls, ReadsOnly cachedPath l)) ∧ s.tasks true = .suspended sampleRead := by
    refine ⟨_, _, ⟨((((((Run.nil.snoc ⟨.start (t := false) (c := sampleRead) rfl, hheard _ _ rfl⟩).snoc
      ⟨.start (t := true) (c := sampleRead) rfl, hheard _ _ rfl⟩).snoc
      ⟨.miss (t := false) rfl rfl rfl, hheard _ _ rfl⟩).snoc
      ⟨.miss (t := true) rfl rfl rfl, hheard _ _ rfl⟩).snoc
      ⟨.claim (t := false) rfl (by decide), hheard _ _ rfl⟩).snoc
      ⟨.look (t := true) rfl rfl, hheard _ _ rfl⟩).snoc ⟨.notified (t := true) rfl, hheard _ _ rfl⟩,
      ?_⟩, rfl⟩
    intro l hl
    simp only [List.nil_append, List.cons_append, List.mem_cons, List.not_mem_nil, or_false] at hl
    have hread : IsCachedRead sampleRead := ⟨sampleHandle, 0, 0, rfl, rfl⟩
    rcases hl with rfl | rfl | rfl | rfl | rfl | rfl | rfl <;>
      refine ⟨by simp, fun t call heq _ => ?_⟩ <;> cases heq <;> exact hread
  obtain ⟨s, ls, ⟨hrun, hls⟩, ht⟩ := hrun
  have hplain : Run Step (start sampleBackend fun _ => none) ls s :=
    hrun.mono fun _ _ _ hstep => hstep.1
  have hspec := cache_file_waits_and_reads_once sampleBackend (fun _ => none) ls s
  exact ⟨s, ls, ⟨hrun, hls⟩, ht, hspec.1 hrun true sampleRead ht,
    (hspec.2 cachedPath (by decide) rfl hplain hls).1⟩

/-- **A notification can be missed.** The second task has found the file `Downloading`, the first
one finishes the download and notifies, and then the second one creates its future: it waits, and no
task owes it a notification. -/
theorem missed_notification :
    ∃ (s : CacheBackend Bool) (ls : List (CacheLabel Bool)),
      Run Step (start sampleBackend fun _ => none) ls s ∧
        s.tasks true = .suspended sampleRead ∧ ¬ ∃ t', t' ≠ true ∧ Owes s t' cachedPath := by
  refine ⟨_, _, (((((((((((Run.nil.snoc (.start (t := false) (c := sampleRead) rfl)).snoc
    (.start (t := true) (c := sampleRead) rfl)).snoc (.miss (t := false) rfl rfl rfl)).snoc
    (.miss (t := true) rfl rfl rfl)).snoc (.claim (t := false) rfl (by decide))).snoc
    (.look (t := true) rfl rfl)).snoc (.absent (t := false) rfl rfl)).snoc
    (.fetch (t := false) rfl rfl)).snoc (.store (t := false) rfl)).snoc
    (.finish (t := false) rfl)).snoc (.notify (t := false) rfl)).snoc (.notified (t := true) rfl),
    rfl, ?_⟩
  rintro ⟨t', hne, howes⟩
  cases t' with
  | true => exact hne rfl
  | false => rcases howes with howes | howes <;> cases howes

end CacheBackend

end Mapache
