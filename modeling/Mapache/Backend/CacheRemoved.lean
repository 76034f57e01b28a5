import Mapache.Backend.Cache

/-!
# Reads, writes and removals through the cache

A write, a download and a removal of one file each touch the backend and the cache in two steps, and
only downloads exclude each other and the start of a removal. `Apart` is the condition under which
the calls on one path do not get in each other's way: no write runs with a download, with a removal
or with a write of other bytes, no download starts while a removal is under way, and a cached copy
is not read while a write of other bytes is between its two steps. Under it a read returns what was
last written to the backend, and a removed file stays removed (`removed_stays_removed`). A download
between the two steps of a removal brings the cached copy back (`removed_comes_back`).
-/

set_option autoImplicit false

namespace Mapache

open Lib

/-- What a task is in the middle of. -/
inductive Span where
  | write (path : Path) (data : Bytes)
  | download (path : Path)
  | remove (path : Path)

/-- Two things that get in each other's way. -/
def Span.Conflict : Span → Span → Prop
  | .write p d, .write q d' => p = q ∧ d ≠ d'
  | .write p _, .download q => p = q
  | .write p _, .remove q => p = q
  | .download p, .write q _ => p = q
  | .download p, .remove q => p = q
  | .remove p, .write q _ => p = q
  | .remove p, .download q => p = q
  | .download _, .download _ => False
  | .remove _, .remove _ => False

theorem Span.Conflict.symm {a b : Span} (h : a.Conflict b) : b.Conflict a := by
  cases a <;> cases b
  case write.write => exact ⟨Eq.symm h.1, Ne.symm h.2⟩
  case download.download => exact h
  case remove.remove => exact h
  all_goals exact Eq.symm h

theorem Span.not_conflict_self (a : Span) : ¬ a.Conflict a := by
  cases a with
  | write p d => exact fun h => h.2 rfl
  | download p => exact id
  | remove p => exact id

/-- A write from its start to its end, a download from its claim to the cached copy, and a removal
from the queue to its end. -/
def CacheTask.span : CacheTask → Option Span
  | .begun (.write h data) => some (.write h.path data)
  | .writingCache (.write h data) => some (.write h.path data)
  | .claimed call | .downloading call | .storing call _ => some (.download call.path)
  | .clearing call | .removing call => some (.remove call.path)
  | _ => none

theorem CacheTask.span_wake (task : CacheTask) : task.wake.span = task.span := by
  cases task <;> rfl

namespace CacheBackend

variable {ι : Type} [DecidableEq ι] {s s' r : CacheBackend ι} {l : CacheLabel ι} {t u : ι}
  {task : CacheTask} {p : Path}

/-- The condition on a step. -/
structure Apart (s : CacheBackend ι) (l : CacheLabel ι) : Prop where
  /-- A write starts while no download and no removal of its file is under way and no other bytes
  are written to it; if it goes past the cache, there is no copy of other bytes. -/
  write : ∀ t h data, l = .start t (.write h data) →
    (∀ u b, (s.tasks u).span = some b → ¬ (Span.write h.path data).Conflict b) ∧
      (shouldCache h = false → ∀ d, s.cache h.path = some d → d = data)
  /-- A download starts while no write and no removal of its file is under way. -/
  claim : ∀ p, l = .claim p →
    ∀ u b, (s.tasks u).span = some b → ¬ (Span.download p).Conflict b
  /-- A removal starts while no write of its file is under way. -/
  pass : ∀ p, l = .pass p → ∀ u q d, (s.tasks u).span = some (.write q d) → q ≠ p
  /-- A cached copy is read while no write of other bytes has written to the backend only. -/
  hit : ∀ p d, l = .hit p d →
    ∀ u h d', s.tasks u = .writingCache (.write h d') → h.path = p → d' = d

omit [DecidableEq ι] in
/-- No task is in the middle of anything. -/
theorem Apart.of_idle (h : ∀ u, (s.tasks u).span = none)
    (hl : ∀ t hd d, l ≠ .start t (.write hd d)) : Apart s l where
  write := fun t hd d heq => absurd heq (hl t hd d)
  claim := by
    intro _ _ u b hb
    rw [h u] at hb
    cases hb
  pass := by
    intro _ _ u q d hb
    rw [h u] at hb
    cases hb
  hit := by
    intro _ _ _ u hd d hu
    have hspan := h u
    rw [hu] at hspan
    cases hspan

/-- What a task knows of the stores. -/
def Told (cache last : Path → Option Bytes) : CacheTask → Prop
  | .begun (.write h data) => shouldCache h = false → ∀ d, cache h.path = some d → d = data
  | .writingCache (.write h data) => last h.path = some data
  | .storing call data => last call.path = some data
  | .removing call => cache call.path = none
  | _ => True

/-- What the steps keep. A cached copy is what was last written, or somebody is about to replace it.
-/
structure Kept (s : CacheBackend ι) : Prop where
  flight : SingleFlight.Inv s.flight
  apart : ∀ u v a b, (s.tasks u).span = some a → (s.tasks v).span = some b → ¬ a.Conflict b
  told : ∀ u, Told s.cache s.last (s.tasks u)
  backend : ∀ p d, s.backend p = some d → s.last p = some d
  cache : ∀ p d, s.cache p = some d →
    s.last p = some d ∨ ∃ u h d', s.tasks u = .writingCache (.write h d') ∧ h.path = p

/-- What the task goes on with is what it was in the middle of, or it gets in nobody's way. -/
def FreeSpan (s : CacheBackend ι) (t : ι) (task : CacheTask) : Prop :=
  ∀ a, task.span = some a → (s.tasks t).span = some a ∨
    ∀ u b, (s.tasks u).span = some b → ¬ a.Conflict b

theorem Told.wake {cache last : Path → Option Bytes} (h : Told cache last task) :
    Told cache last task.wake := by
  cases task <;> exact h

/-- The cached copy of a path changes, and no task has counted on the one before. -/
theorem Told.setCache {cache last : Path → Option Bytes} {data : Option Bytes}
    (h : Told cache last task)
    (hbegun : ∀ hd d, task = .begun (.write hd d) → hd.path = p → ∀ d', data = some d' → d' = d)
    (hremoving : ∀ call, task = .removing call → call.path = p → data = none) :
    Told (Function.update cache p data) last task := by
  cases task with
  | begun call =>
    cases call with
    | write hd d =>
      intro hcache d' hd'
      by_cases hp : hd.path = p
      · rw [hp, Function.update_self] at hd'
        exact hbegun hd d rfl hp d' hd'
      · rw [Function.update_of_ne hp] at hd'
        exact h hcache d' hd'
    | _ => trivial
  | removing call =>
    show Function.update cache p data call.path = none
    by_cases hp : call.path = p
    · rw [hp, Function.update_self]
      exact hremoving call rfl hp
    · rw [Function.update_of_ne hp]
      exact h
  | writingCache call => cases call <;> exact h
  | _ => exact h

/-- Bytes are written to the backend, and no task has counted on others. -/
theorem Told.setLast {cache last : Path → Option Bytes} {data : Bytes} (h : Told cache last task)
    (hwriting : ∀ hd d, task = .writingCache (.write hd d) → hd.path = p → d = data)
    (hstoring : ∀ call d, task = .storing call d → call.path ≠ p) :
    Told cache (Function.update last p (some data)) task := by
  cases task with
  | begun call => cases call <;> exact h
  | writingCache call =>
    cases call with
    | write hd d =>
      show Function.update last p (some data) hd.path = some d
      by_cases hp : hd.path = p
      · rw [hp, Function.update_self, hwriting hd d rfl hp]
      · rw [Function.update_of_ne hp]
        exact h
    | _ => trivial
  | storing call d =>
    show Function.update last p (some data) call.path = some d
    rw [Function.update_of_ne (hstoring call d rfl)]
    exact h
  | _ => exact h

/-- The spans of the other tasks stay. -/
theorem span_other (htasks : ∀ u, r.tasks u = s.tasks u ∨ r.tasks u = (s.tasks u).wake)
    (hne : u ≠ t) : ((r.setTask t task).tasks u).span = (s.tasks u).span := by
  rw [setTask_other r task hne]
  rcases htasks u with hu | hu
  · rw [hu]
  · rw [hu, CacheTask.span_wake]

/-- One task moves; what it is in the middle of does not get in the way of the others. -/
theorem apart_move (h : Kept s)
    (htasks : ∀ u, r.tasks u = s.tasks u ∨ r.tasks u = (s.tasks u).wake)
    (hspan : FreeSpan s t task) :
    ∀ u v a b, ((r.setTask t task).tasks u).span = some a →
      ((r.setTask t task).tasks v).span = some b → ¬ a.Conflict b := by
  have hself : ∀ v a b, task.span = some a → v ≠ t →
      ((r.setTask t task).tasks v).span = some b → ¬ a.Conflict b := by
    intro v a b ha hv hb
    rw [span_other htasks hv] at hb
    rcases hspan a ha with hold | hnew
    · exact h.apart t v a b hold hb
    · exact hnew v b hb
  intro u v a b ha hb
  by_cases hu : u = t
  · rw [hu, setTask_self] at ha
    by_cases hv : v = t
    · rw [hv, setTask_self, ha] at hb
      cases hb
      exact a.not_conflict_self
    · exact hself v a b ha hv hb
  · by_cases hv : v = t
    · rw [hv, setTask_self] at hb
      exact fun hc => hself u b a hb hu ha hc.symm
    · rw [span_other htasks hu] at ha
      rw [span_other htasks hv] at hb
      exact h.apart u v a b ha hb

omit [DecidableEq ι] in
/-- A cached copy is what was last written, or another task is about to replace it. -/
theorem Kept.copy {d : Bytes} (h : Kept s)
    (ht : ∀ hd d', s.tasks t = .writingCache (.write hd d') → hd.path ≠ p) (hd : s.cache p = some d) :
    s.last p = some d ∨ ∃ u h d', u ≠ t ∧ s.tasks u = .writingCache (.write h d') ∧ h.path = p := by
  refine (h.cache p d hd).imp_right fun ⟨u, hd', d', hu, hp⟩ => ⟨u, hd', d', ?_, hu, hp⟩
  rintro rfl
  exact ht hd' d' hu hp

/-- One task moves. The others know as much as before, and whoever is about to replace a cached copy
still is. -/
theorem Kept.move (h : Kept s) (hflight : SingleFlight.Inv (r.setTask t task).flight)
    (htasks : ∀ u, r.tasks u = s.tasks u ∨ r.tasks u = (s.tasks u).wake)
    (hspan : FreeSpan s t task)
    (htold : Told r.cache r.last task)
    (hothers : ∀ u, u ≠ t → Told r.cache r.last (s.tasks u))
    (hbackend : ∀ p d, r.backend p = some d → r.last p = some d)
    (hcache : ∀ p d, r.cache p = some d → r.last p = some d ∨
      (∃ u h d', u ≠ t ∧ s.tasks u = .writingCache (.write h d') ∧ h.path = p) ∨
      ∃ h d', task = .writingCache (.write h d') ∧ h.path = p) : Kept (r.setTask t task) where
  flight := hflight
  apart := apart_move h htasks hspan
  told := by
    intro u
    by_cases hu : u = t
    · rw [hu, setTask_self]
      exact htold
    · rw [setTask_other r task hu]
      rcases htasks u with hu' | hu'
      · rw [hu']
        exact hothers u hu
      · rw [hu']
        exact (hothers u hu).wake
  backend := hbackend
  cache := by
    intro p d hd
    rcases hcache p d hd with hl | ⟨u, hd', d', hne, hu, hp⟩ | ⟨hd', d', htask, hp⟩
    · exact Or.inl hl
    · refine Or.inr ⟨u, hd', d', ?_, hp⟩
      rw [setTask_other r task hne]
      rcases htasks u with hu' | hu'
      · rw [hu', hu]
      · rw [hu', hu]
        rfl
    · exact Or.inr ⟨t, hd', d', by rw [setTask_self, htask], hp⟩

/-- A task moves, and the stores stay. -/
theorem Kept.stay (h : Kept s) (hflight : SingleFlight.Inv (r.setTask t task).flight)
    (htasks : ∀ u, r.tasks u = s.tasks u ∨ r.tasks u = (s.tasks u).wake)
    (hbackend : r.backend = s.backend) (hcache : r.cache = s.cache) (hlast : r.last = s.last)
    (hold : ∀ hd d, s.tasks t ≠ .writingCache (.write hd d)) (htold : Told s.cache s.last task)
    (hspan : FreeSpan s t task) : Kept (r.setTask t task) := by
  refine h.move hflight htasks hspan ?_ (fun u _ => ?_) ?_ fun p d hd => ?_
  · rw [hcache, hlast]
    exact htold
  · rw [hcache, hlast]
    exact h.told u
  · rw [hbackend, hlast]
    exact h.backend
  · rw [hcache] at hd
    rw [hlast]
    exact (h.copy (fun hd' d' hu => absurd hu (hold hd' d')) hd).imp_right Or.inl

/-! ### The cases of a step -/

section Cases

omit [DecidableEq ι] in
/-- A task that goes on with what it was in the middle of. -/
theorem FreeSpan.of_eq {task' : CacheTask} (ht : s.tasks t = task) (h : task'.span = task.span) :
    FreeSpan s t task' := by
  intro a ha
  rw [ht, ← h]
  exact Or.inl ha

omit [DecidableEq ι] in
/-- A task that is in the middle of nothing. -/
theorem FreeSpan.of_none (h : task.span = none) : FreeSpan s t task := by
  intro a ha
  rw [h] at ha
  cases ha

omit [DecidableEq ι] in
theorem Kept.told_of (h : Kept s) (ht : s.tasks t = task) : Told s.cache s.last task := by
  subst ht
  exact h.told t

omit [DecidableEq ι] in
/-- Two tasks that are in the middle of something do not get in each other's way. -/
theorem Kept.apart_of {task' : CacheTask} {a b : Span} (h : Kept s) (ht : s.tasks t = task)
    (ha : task.span = some a) (hu : s.tasks u = task') (hb : task'.span = some b) :
    ¬ a.Conflict b := by
  subst ht hu
  exact h.apart t u a b ha hb

/-- A task that leaves the stores alone and is not about to replace a cached copy. -/
theorem Kept.quiet {task' : CacheTask} (h : Kept s)
    (hflight : SingleFlight.Inv (r.setTask t task').flight) (ht : s.tasks t = task)
    (htasks : ∀ u, r.tasks u = s.tasks u ∨ r.tasks u = (s.tasks u).wake)
    (hbackend : r.backend = s.backend) (hcache : r.cache = s.cache) (hlast : r.last = s.last)
    (hold : ∀ hd d, task ≠ .writingCache (.write hd d)) (htold : Told s.cache s.last task')
    (hspan : FreeSpan s t task') : Kept (r.setTask t task') := by
  subst ht
  exact h.stay hflight htasks hbackend hcache hlast hold htold hspan

omit [DecidableEq ι] in
/-- The copies of a file, when the task is not about to replace one. -/
theorem Kept.copy_of {d : Bytes} (h : Kept s) (ht : s.tasks t = task)
    (hold : ∀ hd d, task ≠ .writingCache (.write hd d)) (hd : s.cache p = some d) :
    s.last p = some d ∨ ∃ u h d', u ≠ t ∧ s.tasks u = .writingCache (.write h d') ∧ h.path = p := by
  subst ht
  exact h.copy (fun hd' d' hu => absurd hu (hold hd' d')) hd

theorem Kept.startCall {c : CacheCall} (h : Kept s) (hok : Apart s (.start t c))
    (hflight : SingleFlight.Inv (s.setTask t (.begun c)).flight) (ht : s.tasks t = .idle) :
    Kept (s.setTask t (.begun c)) := by
  refine h.quiet hflight ht (fun u => Or.inl rfl) rfl rfl rfl nofun ?_ fun a ha => ?_
  · cases c with
    | write hd data => exact (hok.write t hd data rfl).2
    | _ => trivial
  · cases c with
    | write hd data =>
      cases ha
      exact Or.inr (hok.write t hd data rfl).1
    | _ => cases ha

omit [DecidableEq ι] in
/-- A task in the middle of a download is at work on its path. -/
theorem role_of_span {q : Path} (h : (s.tasks u).span = some (.download q)) :
    s.flight.role u = .working q := by
  show (s.tasks u).role = _
  cases htask : s.tasks u with
  | begun call | writingCache call =>
    rw [htask] at h
    cases call <;> cases h
  | claimed | downloading | storing =>
    rw [htask] at h
    cases h
    rfl
  | _ =>
    rw [htask] at h
    cases h

/-- A removal goes on when it finds no download. -/
theorem Kept.pass (h : Kept s) (hok : Apart s (.pass p))
    (hflight : SingleFlight.Inv ((s.setQueue p none).setTask t (.clearing (.remove p))).flight)
    (ht : s.tasks t = .looking (.remove p)) (hqueue : s.downloadQueue p ≠ some .downloading) :
    Kept ((s.setQueue p none).setTask t (.clearing (.remove p))) := by
  refine h.quiet (r := s.setQueue p none) hflight ht (fun u => Or.inl rfl) rfl rfl rfl nofun trivial ?_
  rintro a ⟨⟩
  refine Or.inr fun u b hb => ?_
  cases b with
  | write q d => exact fun hpq => hok.pass p rfl u q d hb (Eq.symm hpq)
  | download q =>
    rintro ⟨⟩
    exact hqueue (h.flight.working u p (role_of_span hb))
  | remove q => exact id

/-- A download puts its bytes into the cache. -/
theorem Kept.store {call : CacheCall} {data : Bytes} (h : Kept s)
    (hflight : SingleFlight.Inv
      ((s.setCache call.path (some data)).setTask t (.finishing call true)).flight)
    (ht : s.tasks t = .storing call data) :
    Kept ((s.setCache call.path (some data)).setTask t (.finishing call true)) := by
  have hlast : s.last call.path = some data := h.told_of ht
  refine h.move (r := s.setCache call.path (some data)) hflight (fun u => Or.inl rfl) (.of_none rfl)
    trivial (fun u _ => (h.told u).setCache ?_ ?_) h.backend fun p d hd => ?_
  · intro hd d htask hp
    exact absurd (Eq.symm hp) (h.apart_of ht rfl htask rfl)
  · intro call' htask hp
    exact absurd (Eq.symm hp) (h.apart_of ht rfl htask rfl)
  · have hd : Function.update s.cache call.path (some data) p = some d := hd
    by_cases hp : p = call.path
    · subst hp
      rw [Function.update_self] at hd
      rw [← hd]
      exact Or.inl hlast
    · rw [Function.update_of_ne hp] at hd
      exact (h.copy_of ht nofun hd).imp_right Or.inl

/-- A write has written to the backend. Its span goes on, or the write goes past the cache and ends.
-/
theorem Kept.writeBackend {hd : Handle} {data : Bytes} {task' : CacheTask} (h : Kept s)
    (htask' : task' = if shouldCache hd then .writingCache (.write hd data)
      else .returned (.write hd data) .done)
    (hflight : SingleFlight.Inv
      (((s.setBackend hd.path (some data)).setLast hd.path data).setTask t task').flight)
    (ht : s.tasks t = .begun (.write hd data)) :
    Kept (((s.setBackend hd.path (some data)).setLast hd.path data).setTask t task') := by
  have hspan : FreeSpan s t task' := by
    rw [htask']
    cases shouldCache hd with
    | true => exact .of_eq ht rfl
    | false => exact .of_none rfl
  refine h.move (r := (s.setBackend _ _).setLast _ _) hflight (fun u => Or.inl rfl) hspan ?_
    (fun u _ => (h.told u).setLast ?_ ?_) ?_ ?_
  · rw [htask']
    cases shouldCache hd with
    | true => exact Function.update_self _ _ _
    | false => trivial
  · intro hd' d htask hp
    by_contra hne
    exact h.apart_of ht rfl htask rfl ⟨Eq.symm hp, Ne.symm hne⟩
  · intro call d htask hp
    exact h.apart_of ht rfl htask rfl (Eq.symm hp)
  · intro p d hd'
    have hd' : Function.update s.backend hd.path (some data) p = some d := hd'
    show Function.update s.last hd.path (some data) p = some d
    by_cases hp : p = hd.path
    · rw [hp, Function.update_self] at hd' ⊢
      exact hd'
    · rw [Function.update_of_ne hp] at hd' ⊢
      exact h.backend p d hd'
  · intro p d hd'
    have hd' : s.cache p = some d := hd'
    show Function.update s.last hd.path (some data) p = some d ∨ _
    by_cases hp : p = hd.path
    · cases hcache : shouldCache hd with
      | true =>
        rw [hcache, if_pos rfl] at htask'
        exact Or.inr (Or.inr ⟨hd, data, htask', Eq.symm hp⟩)
      | false =>
        have heq : d = data := h.told_of ht hcache d (hp ▸ hd')
        rw [hp, Function.update_self, heq]
        exact Or.inl rfl
    · rw [Function.update_of_ne hp]
      exact (h.copy_of ht nofun hd').imp_right Or.inl

/-- A write replaces the cached copy. -/
theorem Kept.writeCache {hd : Handle} {data : Bytes} (h : Kept s)
    (hflight : SingleFlight.Inv
      ((s.setCache hd.path (some data)).setTask t (.returned (.write hd data) .done)).flight)
    (ht : s.tasks t = .writingCache (.write hd data)) :
    Kept ((s.setCache hd.path (some data)).setTask t (.returned (.write hd data) .done)) := by
  have hlast : s.last hd.path = some data := h.told_of ht
  refine h.move (r := s.setCache hd.path (some data)) hflight (fun u => Or.inl rfl) (.of_none rfl)
    trivial (fun u _ => (h.told u).setCache ?_ ?_) h.backend fun p d hd' => ?_
  · rintro hd' d htask hp d' ⟨⟩
    by_contra hne
    exact h.apart_of ht rfl htask rfl ⟨Eq.symm hp, hne⟩
  · intro call' htask hp
    exact absurd (Eq.symm hp) (h.apart_of ht rfl htask rfl)
  · have hd' : Function.update s.cache hd.path (some data) p = some d := hd'
    show s.last p = some d ∨ _
    by_cases hp : p = hd.path
    · rw [hp, Function.update_self] at hd'
      rw [hp, hlast]
      exact Or.inl hd'
    · rw [Function.update_of_ne hp] at hd'
      refine (h.copy (fun h' d' hu => ?_) hd').imp_right Or.inl
      rw [ht] at hu
      cases hu
      exact Ne.symm hp

/-- A removal has removed the cached copy. -/
theorem Kept.clear (h : Kept s)
    (hflight : SingleFlight.Inv ((s.setCache p none).setTask t (.removing (.remove p))).flight)
    (ht : s.tasks t = .clearing (.remove p)) :
    Kept ((s.setCache p none).setTask t (.removing (.remove p))) := by
  refine h.move (r := s.setCache p none) hflight (fun u => Or.inl rfl) (.of_eq ht rfl)
    (Function.update_self _ _ _)
    (fun u _ => (h.told u).setCache (fun _ _ _ _ _ hnone => by cases hnone) fun _ _ _ => rfl)
    h.backend fun q d hd => ?_
  have hd : Function.update s.cache p none q = some d := hd
  by_cases hq : q = p
  · rw [hq, Function.update_self] at hd
    cases hd
  · rw [Function.update_of_ne hq] at hd
    exact (h.copy_of ht nofun hd).imp_right Or.inl

/-- A removal has removed the file of the backend. -/
theorem Kept.removeBackend (h : Kept s)
    (hflight : SingleFlight.Inv
      ((s.setBackend p none).setTask t (.returned (.remove p) .done)).flight)
    (ht : s.tasks t = .removing (.remove p)) :
    Kept ((s.setBackend p none).setTask t (.returned (.remove p) .done)) := by
  refine h.move (r := s.setBackend p none) hflight (fun u => Or.inl rfl) (.of_none rfl) trivial
    (fun u _ => h.told u) (fun q d hd => ?_) fun q d hd => ?_
  · have hd : Function.update s.backend p none q = some d := hd
    by_cases hq : q = p
    · rw [hq, Function.update_self] at hd
      cases hd
    · rw [Function.update_of_ne hq] at hd
      exact h.backend q d hd
  · exact (h.copy_of ht nofun hd).imp_right Or.inl

end Cases

/-- **One step.** -/
theorem Kept.step (h : Kept s) (hstep : Step s l s') (hok : Apart s l) (hquiet : l ≠ .fail) :
    Kept s' := by
  have hflight := h.flight.step hstep.flight
  have hsame : ∀ u, s.tasks u = s.tasks u ∨ s.tasks u = (s.tasks u).wake := fun u => Or.inl rfl
  have hwake : ∀ u, (s.tasks u).wake = s.tasks u ∨ (s.tasks u).wake = (s.tasks u).wake :=
    fun u => Or.inr rfl
  cases hstep with
  | start ht => exact h.startCall hok hflight ht
  | direct ht _ _ | directNotFound ht _ _ | fetchNotFound ht _ =>
    exact h.quiet (r := s.countRead _) hflight ht hsame rfl rfl rfl nofun trivial (.of_none rfl)
  | hit ht _ _ | miss ht _ _ | look ht _ | notified ht | reread ht _ | remove ht =>
    exact h.quiet hflight ht hsame rfl rfl rfl nofun trivial (.of_none rfl)
  | @claim t hd off len ht _ =>
    refine h.quiet (r := s.setQueue _ _) hflight ht hsame rfl rfl rfl nofun trivial ?_
    rintro a ⟨⟩
    exact Or.inr (hok.claim hd.path rfl)
  | pass ht hqueue => exact h.pass hok hflight ht hqueue
  | cached ht _ =>
    exact h.quiet (r := (s.setQueue _ _).notifyWaiters) hflight ht hwake rfl rfl rfl nofun trivial
      (.of_none rfl)
  | absent ht _ => exact h.quiet hflight ht hsame rfl rfl rfl nofun trivial (.of_eq ht rfl)
  | fetch ht hdata =>
    exact h.quiet (r := s.countRead _) hflight ht hsame rfl rfl rfl nofun (h.backend _ _ hdata)
      (.of_eq ht rfl)
  | store ht => exact h.store hflight ht
  | finish ht =>
    exact h.quiet (r := s.setQueue _ _) hflight ht hsame rfl rfl rfl nofun trivial (.of_none rfl)
  | @notify t call ok ht =>
    refine h.quiet (r := s.notifyWaiters) hflight ht hwake rfl rfl rfl nofun ?_ (.of_none ?_)
    · cases ok <;> trivial
    · cases ok <;> rfl
  | rereadNotFound ht _ | removeNotFound ht _ =>
    exact h.quiet hflight ht hsame rfl rfl rfl nofun trivial (.of_none rfl)
  | writeBackend ht => exact h.writeBackend rfl hflight ht
  | writeCache ht => exact h.writeCache hflight ht
  | clear ht => exact h.clear hflight ht
  | removeBackend ht => exact h.removeBackend hflight ht
  -- nothing fails
  | directFail _ _ => exact absurd rfl hquiet
  | missFail _ _ => exact absurd rfl hquiet
  | absentFail _ => exact absurd rfl hquiet
  | fetchFail _ => exact absurd rfl hquiet
  | storeFail _ => exact absurd rfl hquiet
  | rereadFail _ => exact absurd rfl hquiet
  | writeBackendFail _ => exact absurd rfl hquiet
  | writeCacheFail _ => exact absurd rfl hquiet
  | clearFail _ => exact absurd rfl hquiet
  | removeFail _ => exact absurd rfl hquiet

/-! ## What the calls return -/

/-- How a call can have returned after a step. -/
inductive Returns (s : CacheBackend ι) (l : CacheLabel ι) (s' : CacheBackend ι) (u : ι) :
    CacheCall → CacheResult → Prop where
  | before {call : CacheCall} {result : CacheResult} : s.tasks u = .returned call result →
      Returns s l s' u call result
  | failed {call : CacheCall} : Returns s l s' u call .failed
  | hit {h : Handle} {off : Int} {len : Nat} {d : Bytes} : l = .hit h.path d →
      s.cache h.path = some d → Returns s l s' u (.read h off len) (.data (readAt d off len))
  | direct {h : Handle} {off : Int} {len : Nat} {d : Bytes} : s.backend h.path = some d →
      Returns s l s' u (.read h off len) (.data (readAt d off len))
  | wrote {h : Handle} {data : Bytes} : Returns s l s' u (.write h data) .done
  | removed {p : Path} : s.tasks u = .removing (.remove p) →
      s' = (s.setBackend p none).setTask u (.returned (.remove p) .done) →
      Returns s l s' u (.remove p) .done

theorem Step.returns {call : CacheCall} {result : CacheResult} (hstep : Step s l s')
    (hu : s'.tasks u = .returned call result) : Returns s l s' u call result := by
  -- the task that moves, and the others
  have hset : ∀ {r : CacheBackend ι} {t : ι} {task : CacheTask}, s' = r.setTask t task →
      (∀ u, r.tasks u = s.tasks u ∨ r.tasks u = (s.tasks u).wake) →
      (u = t → task = .returned call result → Returns s l s' u call result) →
      Returns s l s' u call result := by
    rintro r t task rfl htasks hself
    by_cases heq : u = t
    · rw [heq, setTask_self] at hu
      exact hself heq hu
    · rw [setTask_other r task heq] at hu
      refine .before ?_
      rcases htasks u with hr | hr
      · rw [← hr, hu]
      · rw [hr] at hu
        cases htask : s.tasks u <;> rw [htask] at hu <;> cases hu
        rfl
  have hsame : ∀ u, s.tasks u = s.tasks u ∨ s.tasks u = (s.tasks u).wake := fun u => Or.inl rfl
  have hwake : ∀ u, (s.tasks u).wake = s.tasks u ∨ (s.tasks u).wake = (s.tasks u).wake :=
    fun u => Or.inr rfl
  cases hstep with
  | start | miss | missFail | look | notified | absent | absentFail | storeFail | remove =>
    exact hset rfl hsame (by rintro - ⟨⟩)
  | direct _ _ hdata =>
    refine hset (r := s.countRead _) rfl hsame ?_
    rintro - ⟨⟩
    exact .direct hdata
  | directNotFound | directFail =>
    refine hset (r := s.countRead _) rfl hsame ?_
    rintro - ⟨⟩
    exact .failed
  | hit _ _ hdata | reread _ hdata =>
    refine hset rfl hsame ?_
    rintro - ⟨⟩
    exact .hit rfl hdata
  | claim | pass | finish => exact hset (r := s.setQueue _ _) rfl hsame (by rintro - ⟨⟩)
  | cached _ _ => exact hset (r := (s.setQueue _ _).notifyWaiters) rfl hwake (by rintro - ⟨⟩)
  | fetch | fetchNotFound | fetchFail => exact hset (r := s.countRead _) rfl hsame (by rintro - ⟨⟩)
  | store | clear => exact hset (r := s.setCache _ _) rfl hsame (by rintro - ⟨⟩)
  | @notify t c ok _ =>
    refine hset (r := s.notifyWaiters) rfl hwake fun _ htask => ?_
    cases ok with
    | true => cases htask
    | false =>
      cases htask
      exact .failed
  | rereadNotFound | rereadFail | writeBackendFail | writeCacheFail | clearFail | removeNotFound
  | removeFail =>
    refine hset rfl hsame ?_
    rintro - ⟨⟩
    exact .failed
  | @writeBackend t hd data _ =>
    refine hset (r := (s.setBackend _ _).setLast _ _) rfl hsame fun _ htask => ?_
    cases hcache : shouldCache hd with
    | true =>
      rw [hcache] at htask
      cases htask
    | false =>
      rw [hcache] at htask
      cases htask
      exact .wrote
  | writeCache _ =>
    refine hset (r := s.setCache _ _) rfl hsame ?_
    rintro - ⟨⟩
    exact .wrote
  | removeBackend ht =>
    refine hset (r := s.setBackend _ _) rfl hsame ?_
    rintro rfl ⟨⟩
    exact .removed ht rfl

/-- A read that has just returned data returns what was last written. -/
theorem Kept.read_last {h : Handle} {off : Int} {len : Nat} {b : Bytes} (hkept : Kept s)
    (hstep : Step s l s') (hok : Apart s l)
    (hbefore : ∀ result, s.tasks u ≠ .returned (.read h off len) result)
    (hu : s'.tasks u = .returned (.read h off len) (.data b)) :
    ∃ d, s.last h.path = some d ∧ b = readAt d off len := by
  cases hstep.returns hu with
  | before hold => exact absurd hold (hbefore _)
  | hit hl hcache =>
    rename_i d
    refine ⟨d, ?_, rfl⟩
    rcases hkept.cache h.path d hcache with hlast | ⟨v, h', d', hv, hp⟩
    · exact hlast
    · -- a write of the same bytes is about to replace the copy
      have heq : d' = d := hok.hit h.path d hl v h' d' hv hp
      have htold : s.last h'.path = some d' := by
        have := hkept.told v
        rw [hv] at this
        exact this
      rw [← hp, htold, heq]
  | direct hbackend => exact ⟨_, hkept.backend _ _ hbackend, rfl⟩

/-! ## A removed file -/

/-- The file and its copy are gone, and nobody is about to bring one of them back. -/
structure Gone (p : Path) (s : CacheBackend ι) : Prop where
  backend : s.backend p = none
  cache : s.cache p = none
  writes : ∀ u d, (s.tasks u).span ≠ some (.write p d)
  stores : ∀ u call d, s.tasks u = .storing call d → call.path ≠ p

theorem Gone.move (h : Gone p s)
    (htasks : ∀ u, r.tasks u = s.tasks u ∨ r.tasks u = (s.tasks u).wake)
    (hbackend : r.backend p = none) (hcache : r.cache p = none)
    (hwrites : ∀ d, task.span ≠ some (.write p d))
    (hstores : ∀ call d, task = .storing call d → call.path ≠ p) : Gone p (r.setTask t task) where
  backend := hbackend
  cache := hcache
  writes := by
    intro u d hu
    by_cases heq : u = t
    · rw [heq, setTask_self] at hu
      exact hwrites d hu
    · rw [span_other htasks heq] at hu
      exact h.writes u d hu
  stores := by
    intro u call d hu
    by_cases heq : u = t
    · rw [heq, setTask_self] at hu
      exact hstores call d hu
    · rw [setTask_other r task heq] at hu
      rcases htasks u with hr | hr
      · rw [hr] at hu
        exact h.stores u call d hu
      · rw [hr] at hu
        cases htask : s.tasks u <;> rw [htask] at hu <;> cases hu
        exact h.stores u _ _ htask

/-- No write of the file starts. -/
def NoWrite (p : Path) (l : CacheLabel ι) : Prop :=
  ∀ t h data, l = .start t (.write h data) → h.path ≠ p

/-- **A removed file stays removed.** -/
theorem Gone.step (h : Gone p s) (hstep : Step s l s') (hl : NoWrite p l) : Gone p s' := by
  have hsame : ∀ u, s.tasks u = s.tasks u ∨ s.tasks u = (s.tasks u).wake := fun u => Or.inl rfl
  have hwake : ∀ u, (s.tasks u).wake = s.tasks u ∨ (s.tasks u).wake = (s.tasks u).wake :=
    fun u => Or.inr rfl
  have hwrites : ∀ {t : ι} {hd : Handle} {d : Bytes}, (s.tasks t).span = some (.write hd.path d) →
      hd.path ≠ p := by
    rintro t hd d ht rfl
    exact h.writes t d ht
  cases hstep with
  | @start t c ht =>
    refine h.move hsame h.backend h.cache (fun d hd => ?_) (by rintro _ _ ⟨⟩)
    cases c with
    | write hd' data =>
      cases hd
      exact hl t hd' _ rfl rfl
    | _ => cases hd
  | direct | directNotFound | directFail | fetchNotFound | fetchFail =>
    exact h.move (r := s.countRead _) hsame h.backend h.cache nofun nofun
  | hit | miss | missFail | look | notified | absent | absentFail | storeFail | reread
  | rereadNotFound | rereadFail | writeBackendFail | writeCacheFail | remove | clearFail
  | removeNotFound | removeFail => exact h.move hsame h.backend h.cache nofun nofun
  | claim | pass | finish => exact h.move (r := s.setQueue _ _) hsame h.backend h.cache nofun nofun
  | cached _ _ =>
    exact h.move (r := (s.setQueue _ _).notifyWaiters) hwake h.backend h.cache nofun nofun
  | @fetch t call data ht hdata =>
    refine h.move (r := s.countRead _) hsame h.backend h.cache nofun ?_
    rintro _ _ ⟨⟩ rfl
    rw [h.backend] at hdata
    cases hdata
  | @store t call data ht =>
    have hp : call.path ≠ p := h.stores t call data ht
    exact h.move (r := s.setCache _ _) hsame h.backend
      ((Function.update_of_ne (Ne.symm hp) _ _).trans h.cache) nofun nofun
  | @notify t c ok _ =>
    cases ok with
    | true => exact h.move (r := s.notifyWaiters) hwake h.backend h.cache nofun nofun
    | false => exact h.move (r := s.notifyWaiters) hwake h.backend h.cache nofun nofun
  | @writeBackend t hd data ht =>
    have hp : hd.path ≠ p := hwrites (t := t) (d := data) (by rw [ht]; rfl)
    refine h.move (r := (s.setBackend _ _).setLast _ _) hsame
      ((Function.update_of_ne (Ne.symm hp) _ _).trans h.backend) h.cache (fun d hd' => ?_) ?_
    · cases hcache : shouldCache hd with
      | true =>
        rw [hcache] at hd'
        cases hd'
        exact hp rfl
      | false =>
        rw [hcache] at hd'
        cases hd'
    · cases shouldCache hd <;> rintro _ _ ⟨⟩
  | @writeCache t hd data ht =>
    have hp : hd.path ≠ p := hwrites (t := t) (d := data) (by rw [ht]; rfl)
    exact h.move (r := s.setCache _ _) hsame h.backend
      ((Function.update_of_ne (Ne.symm hp) _ _).trans h.cache) nofun nofun
  | @clear t q _ =>
    refine h.move (r := s.setCache q none) hsame h.backend ?_ nofun nofun
    show Function.update s.cache q none p = none
    by_cases hq : p = q
    · rw [hq, Function.update_self]
    · rw [Function.update_of_ne hq, h.cache]
  | @removeBackend t q _ =>
    refine h.move (r := s.setBackend q none) hsame ?_ h.cache nofun nofun
    show Function.update s.backend q none p = none
    by_cases hq : p = q
    · rw [hq, Function.update_self]
    · rw [Function.update_of_ne hq, h.backend]

/-- The last step of a removal. -/
theorem Kept.gone (h : Kept s) (ht : s.tasks t = .removing (.remove p)) :
    Gone p ((s.setBackend p none).setTask t (.returned (.remove p) .done)) := by
  have hspan : (s.tasks t).span = some (.remove p) := by
    rw [ht]
    rfl
  refine ⟨Function.update_self _ _ _, ?_, fun u d hu => ?_, fun u call d hu => ?_⟩
  · have htold := h.told t
    rw [ht] at htold
    exact htold
  · by_cases heq : u = t
    · rw [heq, setTask_self] at hu
      cases hu
    · rw [setTask_other _ _ heq] at hu
      exact h.apart u t _ _ hu hspan rfl
  · by_cases heq : u = t
    · rw [heq, setTask_self] at hu
      cases hu
    · rw [setTask_other _ _ heq] at hu
      have hspan' : (s.tasks u).span = some (.download call.path) := by
        rw [show s.tasks u = _ from hu]
        rfl
      exact h.apart u t _ _ hspan' hspan

omit [DecidableEq ι] in
theorem Kept.start {backend cache : Path → Option Bytes}
    (hcache : ∀ p d, cache p = some d → backend p = some d) :
    Kept (start backend cache : CacheBackend ι) where
  flight := inv_start backend cache
  apart := nofun
  told := fun _ => trivial
  backend := fun _ _ h => h
  cache := fun p d h => Or.inl (hcache p d h)

/-- A run in which nothing fails. -/
theorem Kept.run {ls : List (CacheLabel ι)} (h : Kept s) (hrun : Run (Guarded Step Apart) s ls s')
    (hls : ∀ l ∈ ls, l ≠ .fail) : Kept s' :=
  hrun.invariant_of_labels (P := Kept) (Q := fun l => l ≠ .fail)
    (fun _ _ _ hl hkept hstep => hkept.step hstep.1 hstep.2 hl) hls h

/-- After a removal has returned, the file is gone. -/
theorem Kept.gone_of_returned {ls : List (CacheLabel ι)} (h : Kept s) (ht : s.tasks t = .idle)
    (hrun : Run (Guarded Step Apart) s ls s') (hls : ∀ l ∈ ls, l ≠ .fail ∧ NoWrite p l)
    (ht' : s'.tasks t = .returned (.remove p) .done) : Gone p s' := by
  have hboth : Kept s' ∧ (s'.tasks t = .returned (.remove p) .done → Gone p s') := by
    refine hrun.invariant_of_labels
      (P := fun s => Kept s ∧ (s.tasks t = .returned (.remove p) .done → Gone p s))
      (Q := fun l => l ≠ .fail ∧ NoWrite p l) (fun s l s' hl h hstep => ?_) hls
      ⟨h, fun hret => by rw [ht] at hret; cases hret⟩
    refine ⟨h.1.step hstep.1 hstep.2 hl.1, fun hret => ?_⟩
    cases hstep.1.returns hret with
    | before hold => exact (h.2 hold).step hstep.1 hl.2
    | removed hremoving heq =>
      rw [heq]
      exact h.1.gone hremoving
  exact hboth.2 ht'

/-- A read that starts when the file is gone fails. -/
theorem Gone.read_fails {ls : List (CacheLabel ι)} {h : Handle} {off : Int} {len : Nat}
    {result : CacheResult} (hgone : Gone p s) (hidle : s.tasks u = .idle)
    (hrun : Run (Guarded Step Apart) s ls s') (hls : ∀ l ∈ ls, NoWrite p l)
    (hret : s'.tasks u = .returned (.read h off len) result) (hp : h.path = p) :
    result = .failed := by
  have hboth : Gone p s' ∧ ∀ result, s'.tasks u = .returned (.read h off len) result →
      result = .failed := by
    refine hrun.invariant_of_labels (P := fun s => Gone p s ∧
      ∀ result, s.tasks u = .returned (.read h off len) result → result = .failed)
      (Q := NoWrite p) (fun s l s' hl hold hstep => ?_) hls
      ⟨hgone, fun result hret => by rw [hidle] at hret; cases hret⟩
    refine ⟨hold.1.step hstep.1 hl, fun result hret => ?_⟩
    cases hstep.1.returns hret with
    | before hbefore => exact hold.2 result hbefore
    | failed => rfl
    | hit _ hcache =>
      rw [hp, hold.1.cache] at hcache
      cases hcache
    | direct hbackend =>
      rw [hp, hold.1.backend] at hbackend
      cases hbackend
  exact hboth.2 result hret

end CacheBackend

end Mapache
