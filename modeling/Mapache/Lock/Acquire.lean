import Mathlib.Data.Finset.Insert
import Mapache.Lock.Handle

/-!
# Acquiring a lock

`try_acquire_lock_once` of `repository/lock.rs` for any number of clients on one locks directory. A
client writes its own lock file, lists the directory, reads the listed files one by one, and then
checks the locks it read: its own is skipped, a stale one is deleted, and one that conflicts makes
it delete its own file and fail. A client that finds no conflict holds a `LockHandle`, whose refresh
and release tasks run beside the other clients. `AcquireSystem.Step` interleaves all of these at the
granularity of single backend operations; its labels tell the steps of a backend that works and of
locks that are not stale from the others.

There is no compare-and-swap: a client is safe because it publishes its lock before it lists. The
invariant `AcquireSystem.Inv` says so for each pair of conflicting clients whose files are in place:
at least one of the two is still going to see the other (`WillSee`). `locks_exclude_each_other`
follows, since a client that holds its lock is not going to see anyone.
-/

set_option autoImplicit false

namespace Mapache

open Lib

variable {κ τ : Type}

/-- Where one client stands in `try_acquire_lock_once`, and after it. -/
inductive AcquirePhase (τ : Type) where
  | idle
  /-- Before `create_dir`. -/
  | creating (exclusive : Bool)
  /-- Before the write of the new lock. -/
  | saving (own : Lock)
  /-- Before `list_files`. -/
  | listing (own : Lock)
  /-- In the loop of `get_locks`: the files still to read and the locks read so far. -/
  | reading (own : Lock) (todo : List ID) (locks : List Lock)
  /-- In the loop over the locks that were read. -/
  | checking (own : Lock) (todo : List Lock)
  /-- Deleting a stale lock. -/
  | cleaning (own : Lock) (stale : ID) (todo : List Lock)
  /-- Deleting its own lock after a conflict, or after a failed listing. -/
  | aborting (own : Lock)
  /-- The attempt returned `Err`, with the lock it had created. -/
  | failed (own : Option Lock)
  /-- The attempt returned `Ok`. -/
  | held (handle : LockHandle τ)

/-- The clients, the locks directory, and the IDs that were ever drawn. -/
structure AcquireSystem (κ τ : Type) where
  clients : κ → AcquirePhase τ
  locks : Dir LockFile
  used : Finset ID

/-- The client `c` moves to phase `p` and the directory becomes `locks`. -/
def AcquireSystem.set [DecidableEq κ] (s : AcquireSystem κ τ) (c : κ) (p : AcquirePhase τ)
    (locks : Dir LockFile) : AcquireSystem κ τ :=
  { s with clients := Function.update s.clients c p, locks := locks }

section Set

variable [DecidableEq κ] (s : AcquireSystem κ τ) (c d : κ) (p : AcquirePhase τ)
  (locks : Dir LockFile)

@[simp, grind =] theorem AcquireSystem.set_locks : (s.set c p locks).locks = locks := rfl
@[simp, grind =] theorem AcquireSystem.set_used : (s.set c p locks).used = s.used := rfl
@[simp, grind =] theorem AcquireSystem.set_clients :
    (s.set c p locks).clients d = if d = c then p else s.clients d := by
  simp [AcquireSystem.set, Function.update_apply]

end Set

/-- What a step ran into: nothing, a backend operation that failed, or a lock judged stale. -/
inductive AcquireLabel where
  | ok
  | fault
  | stale
  deriving DecidableEq

/-- The label of a step of a handle's tasks. -/
def HandleEvent.label : HandleEvent τ → AcquireLabel
  | .saveFail => .fault
  | .deleteFail _ => .fault
  | _ => .ok

/-- One step of one client. -/
inductive AcquireSystem.Step [DecidableEq κ] [DecidableEq τ] :
    AcquireSystem κ τ → AcquireLabel → AcquireSystem κ τ → Prop where
  /-- A first attempt, or a retry after a failed one. -/
  | start {s : AcquireSystem κ τ} {c : κ} (exclusive : Bool) :
      (s.clients c = .idle ∨ ∃ own, s.clients c = .failed own) →
      Step s .ok (s.set c (.creating exclusive) s.locks)
  /-- The directory exists and `Lock::new` draws an ID that was never drawn before. -/
  | create {s : AcquireSystem κ τ} {c : κ} {exclusive : Bool} (m : Machine) (id : ID) (pid : Nat) :
      s.clients c = .creating exclusive → id ∉ s.used →
      Step s .ok { s.set c (.saving (.new m id pid exclusive)) s.locks with used := insert id s.used }
  | createFail {s : AcquireSystem κ τ} {c : κ} {exclusive : Bool} :
      s.clients c = .creating exclusive → Step s .fault (s.set c (.failed none) s.locks)
  | save {s : AcquireSystem κ τ} {c : κ} {own : Lock} : s.clients c = .saving own →
      Step s .ok (s.set c (.listing own) (s.locks.insert own.id (.encoded own)))
  | saveFail {s : AcquireSystem κ τ} {c : κ} {own : Lock} : s.clients c = .saving own →
      Step s .fault (s.set c (.failed (some own)) s.locks)
  /-- The listing names every file of the directory, in any order. -/
  | list {s : AcquireSystem κ τ} {c : κ} {own : Lock} {todo : List ID} :
      s.clients c = .listing own → todo.Perm s.locks.keys →
      Step s .ok (s.set c (.reading own todo []) s.locks)
  | listFail {s : AcquireSystem κ τ} {c : κ} {own : Lock} : s.clients c = .listing own →
      Step s .fault (s.set c (.aborting own) s.locks)
  | read {s : AcquireSystem κ τ} {c : κ} {own : Lock} {id : ID} {todo : List ID}
      {locks : List Lock} {o : Lock} : s.clients c = .reading own (id :: todo) locks →
      (s.locks.lookup id).bind LockFile.parse = some o →
      Step s .ok (s.set c (.reading own todo (locks ++ [o])) s.locks)
  /-- The file vanished since the listing, or it does not decode. -/
  | skip {s : AcquireSystem κ τ} {c : κ} {own : Lock} {id : ID} {todo : List ID}
      {locks : List Lock} : s.clients c = .reading own (id :: todo) locks →
      (s.locks.lookup id).bind LockFile.parse = none →
      Step s .ok (s.set c (.reading own todo locks) s.locks)
  | readFail {s : AcquireSystem κ τ} {c : κ} {own : Lock} {id : ID} {todo : List ID}
      {locks : List Lock} : s.clients c = .reading own (id :: todo) locks →
      Step s .fault (s.set c (.reading own todo locks) s.locks)
  | readDone {s : AcquireSystem κ τ} {c : κ} {own : Lock} {locks : List Lock} :
      s.clients c = .reading own [] locks → Step s .ok (s.set c (.checking own locks) s.locks)
  | checkOwn {s : AcquireSystem κ τ} {c : κ} {own o : Lock} {todo : List Lock} :
      s.clients c = .checking own (o :: todo) → o.id = own.id →
      Step s .ok (s.set c (.checking own todo) s.locks)
  | checkStale {s : AcquireSystem κ τ} {c : κ} {own o : Lock} {todo : List Lock} (m : Machine) :
      s.clients c = .checking own (o :: todo) → o.id ≠ own.id → o.isStale m = true →
      Step s .stale (s.set c (.cleaning own o.id todo) s.locks)
  | checkConflict {s : AcquireSystem κ τ} {c : κ} {own o : Lock} {todo : List Lock} (m : Machine) :
      s.clients c = .checking own (o :: todo) → o.id ≠ own.id → o.isStale m = false →
      (own.exclusive || o.exclusive) = true → Step s .ok (s.set c (.aborting own) s.locks)
  | checkShared {s : AcquireSystem κ τ} {c : κ} {own o : Lock} {todo : List Lock} (m : Machine) :
      s.clients c = .checking own (o :: todo) → o.id ≠ own.id → o.isStale m = false →
      (own.exclusive || o.exclusive) = false → Step s .ok (s.set c (.checking own todo) s.locks)
  | clean {s : AcquireSystem κ τ} {c : κ} {own : Lock} {stale : ID} {todo : List Lock} :
      s.clients c = .cleaning own stale todo →
      Step s .stale (s.set c (.checking own todo) (s.locks.erase stale))
  /-- The result of this delete is ignored. -/
  | cleanFail {s : AcquireSystem κ τ} {c : κ} {own : Lock} {stale : ID} {todo : List Lock} :
      s.clients c = .cleaning own stale todo → Step s .fault (s.set c (.checking own todo) s.locks)
  | abort {s : AcquireSystem κ τ} {c : κ} {own : Lock} : s.clients c = .aborting own →
      Step s .ok (s.set c (.failed (some own)) (s.locks.erase own.id))
  | abortFail {s : AcquireSystem κ τ} {c : κ} {own : Lock} : s.clients c = .aborting own →
      Step s .fault (s.set c (.failed (some own)) s.locks)
  | grant {s : AcquireSystem κ τ} {c : κ} {own : Lock} : s.clients c = .checking own [] →
      Step s .ok (s.set c (.held (.new own true)) s.locks)
  | handle {s : AcquireSystem κ τ} {c : κ} {h h' : LockHandle τ} {e : HandleEvent τ} :
      s.clients c = .held h → h.Step e h' →
      Step s e.label (s.set c (.held h') (h.effect e s.locks))

/-- No client has started; the directory may hold files that were left behind. -/
def AcquireSystem.Initial (s : AcquireSystem κ τ) : Prop :=
  (∀ c, s.clients c = .idle) ∧ ∀ id ∈ s.locks, id ∈ s.used

/-! ## What a client has published and what it is going to see -/

/-- No release of the handle has done its work yet. -/
def LockHandle.Unreleased (h : LockHandle τ) : Prop :=
  ∀ t, h.release t ≠ .deleted ∧ h.release t ≠ .returned

theorem LockHandle.unreleased_new (lock : Lock) (alive : Bool) :
    (LockHandle.new (τ := τ) lock alive).Unreleased :=
  fun _ => ⟨ReleasePhase.noConfusion, ReleasePhase.noConfusion⟩

/-- The client holds a granted lock: `try_acquire_lock_once` returned it and no release has
finished. -/
def AcquirePhase.Holds (p : AcquirePhase τ) (own : Lock) : Prop :=
  ∃ h : LockHandle τ, p = .held h ∧ h.lock = own ∧ h.Unreleased

/-- The lock a client has drawn. -/
def AcquirePhase.own : AcquirePhase τ → Option Lock
  | .idle => none
  | .creating _ => none
  | .saving own => some own
  | .listing own => some own
  | .reading own _ _ => some own
  | .checking own _ => some own
  | .cleaning own _ _ => some own
  | .aborting own => some own
  | .failed own => own
  | .held h => some h.lock

/-- The client is past the write of its lock file and has not given up or released the lock. -/
def AcquirePhase.Published : AcquirePhase τ → Prop
  | .listing _ => True
  | .reading _ _ _ => True
  | .checking _ _ => True
  | .cleaning _ _ _ => True
  | .held h => h.Unreleased
  | _ => False

/-- The two locks are of the same client, as far as another client can tell. -/
def Lock.SameOwner (o l : Lock) : Prop := o.id = l.id ∧ o.exclusive = l.exclusive

/-- A client in this phase still has the lock `l` ahead of it: it has not listed yet, or `l` is
among the files to read or the locks to check. -/
def AcquirePhase.WillSee (l : Lock) : AcquirePhase τ → Prop
  | .listing _ => True
  | .reading _ todo locks => l.id ∈ todo ∨ ∃ o ∈ locks, o.SameOwner l
  | .checking _ todo => ∃ o ∈ todo, o.SameOwner l
  | .cleaning _ _ todo => ∃ o ∈ todo, o.SameOwner l
  | _ => False

/-- The file of a published lock is in place, with the ID and the exclusiveness of the lock. -/
def HasLockFile (locks : Dir LockFile) (l : Lock) : Prop :=
  ∃ o, locks.lookup l.id = some (.encoded o) ∧ o.SameOwner l

/-- The invariant of the protocol. -/
structure AcquireSystem.Inv (s : AcquireSystem κ τ) : Prop where
  used : ∀ c own, (s.clients c).own = some own → own.id ∈ s.used
  filesUsed : ∀ id ∈ s.locks, id ∈ s.used
  distinct : ∀ c d lc ld, c ≠ d → (s.clients c).own = some lc → (s.clients d).own = some ld →
    lc.id ≠ ld.id
  files : ∀ c own, (s.clients c).Published → (s.clients c).own = some own →
    HasLockFile s.locks own
  failed : ∀ c own, s.clients c = .failed (some own) → s.locks.lookup own.id = none
  seen : ∀ c d lc ld, c ≠ d → (s.clients c).Published → (s.clients d).Published →
    (s.clients c).own = some lc → (s.clients d).own = some ld →
    (lc.exclusive || ld.exclusive) = true →
    (s.clients c).WillSee ld ∨ (s.clients d).WillSee lc

theorem Lock.SameOwner.trans {o l k : Lock} (h : o.SameOwner l) (h' : l.SameOwner k) :
    o.SameOwner k :=
  ⟨h.1.trans h'.1, h.2.trans h'.2⟩

/-- What a client is going to see depends on the ID and the exclusiveness of a lock only. -/
theorem AcquirePhase.WillSee.congr {l l' : Lock} (hl : l.SameOwner l') {p : AcquirePhase τ}
    (h : p.WillSee l) : p.WillSee l' := by
  cases p with
  | listing own => trivial
  | reading own todo locks =>
    rcases h with hmem | ⟨o, ho, hsame⟩
    · exact Or.inl (hl.1 ▸ hmem)
    · exact Or.inr ⟨o, ho, hsame.trans hl⟩
  | checking own todo | cleaning own stale todo =>
    obtain ⟨o, ho, hsame⟩ := h
    exact ⟨o, ho, hsame.trans hl⟩
  | idle | creating | saving | aborting | failed | held => exact h.elim

theorem HasLockFile.congr {locks locks' : Dir LockFile} {l l' : Lock} (hl : l.SameOwner l')
    (hlook : locks'.lookup l'.id = locks.lookup l.id) (h : HasLockFile locks l) :
    HasLockFile locks' l' := by
  obtain ⟨o, ho, hsame⟩ := h
  exact ⟨o, hlook.trans ho, hsame.trans hl⟩

/-! ## One step keeps the invariant -/

section Step

variable [DecidableEq κ] {s : AcquireSystem κ τ} {c : κ}

/-- A step of one client that keeps the identity of its lock and touches no file but its own keeps
the invariant, if its file is in place whenever it is published, and it goes on seeing the
conflicting locks it was going to see. -/
theorem AcquireSystem.Inv.set (hinv : s.Inv) {p : AcquirePhase τ} {locks' : Dir LockFile}
    (hown : ∀ l, p.own = some l → ∃ own, (s.clients c).own = some own ∧ own.SameOwner l)
    (hframe : ∀ id, (∀ own, (s.clients c).own = some own → id ≠ own.id) →
      locks'.lookup id = s.locks.lookup id)
    (hfile : p.Published → ∀ l, p.own = some l → HasLockFile locks' l)
    (hfailed : ∀ l, p = .failed (some l) → locks'.lookup l.id = none)
    (hsee : p.Published → (∃ l, p = .listing l) ∨ ((s.clients c).Published ∧
      ∀ l other, p.own = some l → other.id ≠ l.id → (l.exclusive || other.exclusive) = true →
        HasLockFile s.locks other → (s.clients c).WillSee other → p.WillSee other)) :
    (s.set c p locks').Inv := by
  -- the file of another client is not touched
  have hother : ∀ d l, d ≠ c → (s.clients d).own = some l →
      locks'.lookup l.id = s.locks.lookup l.id := by
    intro d l hd hl
    refine hframe l.id ?_
    intro own hc
    exact hinv.distinct d c l own hd hl hc
  have hdistinct : ∀ d l ld, d ≠ c → p.own = some l → (s.clients d).own = some ld →
      l.id ≠ ld.id := by
    intro d l ld hd hl hld
    obtain ⟨own, hc, hsame⟩ := hown l hl
    rw [← hsame.1]
    exact hinv.distinct c d own ld hd.symm hc hld
  -- one half of `seen`, the other being its mirror image
  have hpair : ∀ d l ld, d ≠ c → p.Published → (s.clients d).Published → p.own = some l →
      (s.clients d).own = some ld → (l.exclusive || ld.exclusive) = true →
      p.WillSee ld ∨ (s.clients d).WillSee l := by
    intro d l ld hd hp hpd hl hld hconf
    rcases hsee hp with ⟨l', rfl⟩ | ⟨hpc, hkeep⟩
    · exact Or.inl trivial
    · obtain ⟨own, hc, hsame⟩ := hown l hl
      have hconf' : (own.exclusive || ld.exclusive) = true := by rw [hsame.2]; exact hconf
      rcases hinv.seen c d own ld hd.symm hpc hpd hc hld hconf' with hcd | hdc
      · exact Or.inl (hkeep l ld hl (hdistinct d l ld hd hl hld).symm hconf
          (hinv.files d ld hpd hld) hcd)
      · exact Or.inr (hdc.congr hsame)
  refine ⟨?_, ?_, ?_, ?_, ?_, ?_⟩
  · intro d l hl
    rw [AcquireSystem.set_clients] at hl
    split at hl
    · obtain ⟨own, hc, hsame⟩ := hown l hl
      rw [← hsame.1]
      exact hinv.used c own hc
    · exact hinv.used d l hl
  · intro id hid
    by_cases hc : ∀ own, (s.clients c).own = some own → id ≠ own.id
    · refine hinv.filesUsed id ?_
      rw [← AList.lookup_isSome] at hid ⊢
      rw [← hframe id hc]
      exact hid
    · push Not at hc
      obtain ⟨own, hown', rfl⟩ := hc
      exact hinv.used c own hown'
  · intro d e ld le hde hld hle
    rw [AcquireSystem.set_clients] at hld hle
    split at hld
    · split at hle
      · exact absurd (‹d = c›.trans ‹e = c›.symm) hde
      · exact hdistinct e ld le ‹_› hld hle
    · split at hle
      · exact (hdistinct d le ld ‹_› hle hld).symm
      · exact hinv.distinct d e ld le hde hld hle
  · intro d l hp hl
    rw [AcquireSystem.set_clients] at hp hl
    split at hp
    · rw [if_pos ‹_›] at hl
      exact hfile hp l hl
    · rw [if_neg ‹_›] at hl
      exact (hinv.files d l hp hl).congr ⟨rfl, rfl⟩ (hother d l ‹_› hl)
  · intro d l hl
    rw [AcquireSystem.set_clients] at hl
    split at hl
    · exact hfailed l hl
    · have hd : (s.clients d).own = some l := by rw [hl]; rfl
      rw [AcquireSystem.set_locks, hother d l ‹_› hd]
      exact hinv.failed d l hl
  · intro d e ld le hde hpd hpe hld hle hconf
    rw [AcquireSystem.set_clients] at hpd hpe hld hle ⊢
    rw [AcquireSystem.set_clients]
    by_cases hd : d = c
    · have he : e ≠ c := fun he => hde (hd.trans he.symm)
      rw [if_pos hd] at hpd hld ⊢
      rw [if_neg he] at hpe hle ⊢
      exact hpair e ld le he hpd hpe hld hle hconf
    · rw [if_neg hd] at hpd hld ⊢
      by_cases he : e = c
      · rw [if_pos he] at hpe hle ⊢
        rw [Bool.or_comm] at hconf
        exact (hpair d le ld hd hpe hpd hle hld hconf).symm
      · rw [if_neg he] at hpe hle ⊢
        exact hinv.seen d e ld le hde hpd hpe hld hle hconf

/-- A published client that goes on with the same lock and touches no file keeps the invariant, if
it goes on seeing the conflicting locks it was going to see. -/
theorem AcquireSystem.Inv.advance (hinv : s.Inv) {p : AcquirePhase τ} (own : Lock)
    (hold : (s.clients c).own = some own) (hpub : (s.clients c).Published) (hp : p.own = some own)
    (hfailed : ∀ l, p ≠ .failed (some l))
    (hsee : ∀ other : Lock, other.id ≠ own.id → (own.exclusive || other.exclusive) = true →
      HasLockFile s.locks other → (s.clients c).WillSee other → p.WillSee other) :
    (s.set c p s.locks).Inv := by
  refine hinv.set ?_ (fun _ _ => rfl) ?_ ?_ ?_
  · intro l hl
    have heq : own = l := Option.some.inj (hp.symm.trans hl)
    exact ⟨own, hold, heq ▸ ⟨rfl, rfl⟩⟩
  · intro _ l hl
    have heq : own = l := Option.some.inj (hp.symm.trans hl)
    exact heq ▸ hinv.files c own hpub hold
  · intro l hl
    exact absurd hl (hfailed l)
  · intro _
    refine Or.inr ⟨hpub, ?_⟩
    intro l other hl
    have heq : own = l := Option.some.inj (hp.symm.trans hl)
    subst heq
    exact hsee other

/-- A client that draws a fresh lock keeps the invariant. -/
theorem AcquireSystem.Inv.create (hinv : s.Inv) {own : Lock}
    (hfresh : own.id ∉ s.used) :
    AcquireSystem.Inv { s.set c (.saving own) s.locks with used := insert own.id s.used } := by
  have hne : ∀ d l, (s.clients d).own = some l → own.id ≠ l.id := by
    intro d l hl heq
    exact hfresh (heq ▸ hinv.used d l hl)
  refine ⟨?_, ?_, ?_, ?_, ?_, ?_⟩
  · intro d l hl
    simp only [AcquireSystem.set_clients] at hl
    split at hl
    · cases hl
      exact Finset.mem_insert_self _ _
    · exact Finset.mem_insert_of_mem (hinv.used d l hl)
  · intro id hid
    exact Finset.mem_insert_of_mem (hinv.filesUsed id hid)
  · intro d e ld le hde hld hle
    simp only [AcquireSystem.set_clients] at hld hle
    split at hld
    · split at hle
      · exact absurd (‹d = c›.trans ‹e = c›.symm) hde
      · cases hld
        exact hne e le hle
    · split at hle
      · cases hle
        exact (hne d ld hld).symm
      · exact hinv.distinct d e ld le hde hld hle
  · intro d l hp hl
    simp only [AcquireSystem.set_clients] at hp hl
    split at hp
    · exact hp.elim
    · rw [if_neg ‹_›] at hl
      exact hinv.files d l hp hl
  · intro d l hl
    simp only [AcquireSystem.set_clients] at hl
    split at hl
    · cases hl
    · exact hinv.failed d l hl
  · intro d e ld le hde hpd hpe hld hle hconf
    simp only [AcquireSystem.set_clients] at hpd hpe hld hle ⊢
    split at hpd
    · exact hpd.elim
    · split at hpe
      · exact hpe.elim
      · rw [if_neg ‹_›] at hld hle ⊢
        rw [if_neg ‹_›]
        exact hinv.seen d e ld le hde hpd hpe hld hle hconf

/-! ### The cases of a step -/

theorem AcquireSystem.Inv.start (hinv : s.Inv) (exclusive : Bool) :
    (s.set c (.creating exclusive) s.locks).Inv := by
  refine hinv.set ?_ (fun _ _ => rfl) ?_ ?_ ?_
  · intro l hl
    cases hl
  · intro hp
    exact hp.elim
  · intro l hl
    cases hl
  · intro hp
    exact hp.elim

/-- The file of the new lock is there. -/
theorem AcquireSystem.Inv.save {own : Lock} (hinv : s.Inv) (hc : s.clients c = .saving own) :
    (s.set c (.listing own) (s.locks.insert own.id (.encoded own))).Inv := by
  have hown : (s.clients c).own = some own := by rw [hc]; rfl
  refine hinv.set ?_ ?_ ?_ ?_ ?_
  · intro l hl
    cases hl
    exact ⟨own, hown, rfl, rfl⟩
  · intro id hid
    exact AList.lookup_insert_ne (hid own hown)
  · intro _ l hl
    cases hl
    exact ⟨own, AList.lookup_insert _, rfl, rfl⟩
  · intro l hl
    cases hl
  · intro _
    exact Or.inl ⟨own, rfl⟩

/-- Every file that is there is listed. -/
theorem AcquireSystem.Inv.list {own : Lock} {todo : List ID} (hinv : s.Inv) (hc : s.clients c = .listing own)
    (hperm : todo.Perm s.locks.keys) :
    (s.set c (.reading own todo []) s.locks).Inv := by
  refine hinv.advance own (by rw [hc]; rfl) (by rw [hc]; trivial) rfl (by simp) ?_
  rintro other - - ⟨o, ho, -⟩ -
  refine Or.inl ?_
  rw [hperm.mem_iff, ← AList.mem_keys, ← AList.lookup_isSome, ho]
  rfl

/-- The lock of a file that is read is kept. -/
theorem AcquireSystem.Inv.read {own : Lock} {id : ID} {todo : List ID} {locks : List Lock}
    {o : Lock} (hinv : s.Inv) (hc : s.clients c = .reading own (id :: todo) locks)
    (ho : (s.locks.lookup id).bind LockFile.parse = some o) :
    (s.set c (.reading own todo (locks ++ [o])) s.locks).Inv := by
  refine hinv.advance own (by rw [hc]; rfl) (by rw [hc]; trivial) rfl (by simp) ?_
  rintro other - - ⟨o', ho', hsame⟩ hsee
  rw [hc] at hsee
  rcases hsee with hmem | ⟨k, hk, hsame'⟩
  · rcases List.mem_cons.mp hmem with heq | hmem'
    · rw [← heq, ho'] at ho
      cases ho
      exact Or.inr ⟨_, by simp, hsame⟩
    · exact Or.inl hmem'
  · exact Or.inr ⟨k, List.mem_append_left _ hk, hsame'⟩

/-- A file that is skipped is not that of a lock. -/
theorem AcquireSystem.Inv.skip {own : Lock} {id : ID} {todo : List ID} {locks : List Lock}
    (hinv : s.Inv) (hc : s.clients c = .reading own (id :: todo) locks)
    (hnone : (s.locks.lookup id).bind LockFile.parse = none) :
    (s.set c (.reading own todo locks) s.locks).Inv := by
  refine hinv.advance own (by rw [hc]; rfl) (by rw [hc]; trivial) rfl (by simp) ?_
  rintro other - - ⟨o', ho', -⟩ hsee
  rw [hc] at hsee
  rcases hsee with hmem | hread
  · rcases List.mem_cons.mp hmem with heq | hmem'
    · rw [← heq, ho'] at hnone
      cases hnone
    · exact Or.inl hmem'
  · exact Or.inr hread

theorem AcquireSystem.Inv.readDone {own : Lock} {locks : List Lock} (hinv : s.Inv)
    (hc : s.clients c = .reading own [] locks) :
    (s.set c (.checking own locks) s.locks).Inv := by
  refine hinv.advance own (by rw [hc]; rfl) (by rw [hc]; trivial) rfl (by simp) ?_
  rintro other - - - hsee
  rw [hc] at hsee
  rcases hsee with hmem | hread
  · cases hmem
  · exact hread

/-- The own lock is none of the others. -/
theorem AcquireSystem.Inv.checkOwn {own o : Lock} {todo : List Lock} (hinv : s.Inv)
    (hc : s.clients c = .checking own (o :: todo)) (hid : o.id = own.id) :
    (s.set c (.checking own todo) s.locks).Inv := by
  refine hinv.advance own (by rw [hc]; rfl) (by rw [hc]; trivial) rfl (by simp) ?_
  rintro other hne - - hsee
  rw [hc] at hsee
  obtain ⟨k, hk, hsame⟩ := hsee
  rcases List.mem_cons.mp hk with rfl | hk'
  · exact absurd (hsame.1.symm.trans hid) hne
  · exact ⟨k, hk', hsame⟩

/-- A client that has met a conflict publishes nothing any more. -/
theorem AcquireSystem.Inv.toAborting {own o : Lock} {todo : List Lock} (hinv : s.Inv)
    (hc : s.clients c = .checking own (o :: todo)) :
    (s.set c (.aborting own) s.locks).Inv := by
  have hown : (s.clients c).own = some own := by rw [hc]; rfl
  refine hinv.set ?_ (fun _ _ => rfl) ?_ ?_ ?_
  · intro l hl
    cases hl
    exact ⟨own, hown, rfl, rfl⟩
  · intro hp
    exact hp.elim
  · intro l hl
    cases hl
  · intro hp
    exact hp.elim

/-- Two shared locks do not conflict. -/
theorem AcquireSystem.Inv.checkShared {own o : Lock} {todo : List Lock} (hinv : s.Inv)
    (hc : s.clients c = .checking own (o :: todo)) (hshared : (own.exclusive || o.exclusive) = false) :
    (s.set c (.checking own todo) s.locks).Inv := by
  refine hinv.advance own (by rw [hc]; rfl) (by rw [hc]; trivial) rfl (by simp) ?_
  rintro other - hconf - hsee
  rw [hc] at hsee
  obtain ⟨k, hk, hsame⟩ := hsee
  rcases List.mem_cons.mp hk with rfl | hk'
  · rw [hsame.2, hconf] at hshared
    cases hshared
  · exact ⟨k, hk', hsame⟩

/-- The file of a failed attempt is gone. -/
theorem AcquireSystem.Inv.abort {own : Lock} (hinv : s.Inv) (hc : s.clients c = .aborting own) :
    (s.set c (.failed (some own)) (s.locks.erase own.id)).Inv := by
  have hown : (s.clients c).own = some own := by rw [hc]; rfl
  refine hinv.set ?_ ?_ ?_ ?_ ?_
  · intro l hl
    cases hl
    exact ⟨own, hown, rfl, rfl⟩
  · intro id hid
    exact AList.lookup_erase_ne (hid own hown)
  · intro hp
    exact hp.elim
  · intro l hl
    cases hl
    exact AList.lookup_erase _ _
  · intro hp
    exact hp.elim

/-- Nothing is left to be seen. -/
theorem AcquireSystem.Inv.grant {own : Lock} (hinv : s.Inv) (hc : s.clients c = .checking own []) :
    (s.set c (.held (.new own true)) s.locks).Inv := by
  refine hinv.advance own (by rw [hc]; rfl) (by rw [hc]; trivial) rfl (by simp) ?_
  rintro other - - - hsee
  rw [hc] at hsee
  obtain ⟨k, hk, -⟩ := hsee
  cases hk

variable [DecidableEq τ]

/-- A release that has not finished before a step and has not finished after it has not deleted the
file in between. -/
theorem LockHandle.Step.hasLockFile {h h' : LockHandle τ} {e : HandleEvent τ}
    {locks : Dir LockFile} (hstep : h.Step e h') (hun : h'.Unreleased)
    (hfile : h.Unreleased → HasLockFile locks h.lock) :
    h.Unreleased ∧ HasLockFile (h.effect e locks) h'.lock := by
  have hback : h.Unreleased := by
    intro t
    have ht := hun t
    cases hstep <;> grind
  refine ⟨hback, ?_⟩
  obtain ⟨o, ho, hsame⟩ := hfile hback
  cases hstep with
  | save _ => exact ⟨h.lock, AList.lookup_insert _, rfl, rfl⟩
  | delete t _ => exact absurd (by simp) (hun t).1
  | wakeAlive | wakeReleased | stamp | saveFail | call | trigger | acquire | swapSet | swapClear
  | deleteFail | finish => exact ⟨o, ho, hsame⟩

/-- A handle refreshes or deletes its own file. -/
theorem AcquireSystem.Inv.handle {h h' : LockHandle τ} {e : HandleEvent τ} (hinv : s.Inv)
    (hc : s.clients c = .held h) (hst : h.Step e h') :
    (s.set c (.held h') (h.effect e s.locks)).Inv := by
  have hown : (s.clients c).own = some h.lock := by rw [hc]; rfl
  have hfile : h.Unreleased → HasLockFile s.locks h.lock := by
    intro hun
    exact hinv.files c h.lock (by rw [hc]; exact hun) hown
  refine hinv.set ?_ ?_ ?_ ?_ ?_
  · intro l hl
    cases hl
    exact ⟨h.lock, hown, hst.lock_id.symm, hst.lock_exclusive.symm⟩
  · intro id hid
    exact h.effect_lookup_ne e s.locks (hid h.lock hown)
  · intro hp l hl
    cases hl
    exact (hst.hasLockFile hp hfile).2
  · intro l hl
    cases hl
  · intro hp
    refine Or.inr ⟨by rw [hc]; exact (hst.hasLockFile hp hfile).1, ?_⟩
    rintro l other - - - - hsee
    rw [hc] at hsee
    exact hsee.elim

/-- **One step keeps the invariant**, when no operation fails and no lock is stale. -/
theorem AcquireSystem.Inv.step {t : AcquireSystem κ τ} {lab : AcquireLabel} (hinv : s.Inv)
    (hok : lab = .ok) (hstep : s.Step lab t) : t.Inv := by
  cases hstep with
  | start exclusive _ => exact hinv.start exclusive
  | create m id pid _ hfresh => exact hinv.create hfresh
  | save hc => exact hinv.save hc
  | list hc hperm => exact hinv.list hc hperm
  | read hc ho => exact hinv.read hc ho
  | skip hc hnone => exact hinv.skip hc hnone
  | readDone hc => exact hinv.readDone hc
  | checkOwn hc hid => exact hinv.checkOwn hc hid
  | checkConflict m hc _ _ _ => exact hinv.toAborting hc
  | checkShared m hc _ _ hshared => exact hinv.checkShared hc hshared
  | abort hc => exact hinv.abort hc
  | grant hc => exact hinv.grant hc
  | handle hc hst => exact hinv.handle hc hst
  | createFail | saveFail | listFail | readFail | checkStale | clean | cleanFail | abortFail =>
    exact absurd hok (by decide)

end Step

/-! ## Mutual exclusion -/

theorem AcquireSystem.Inv.of_initial {s : AcquireSystem κ τ} (h : s.Initial) : s.Inv := by
  obtain ⟨hidle, hused⟩ := h
  refine ⟨?_, hused, ?_, ?_, ?_, ?_⟩
  · intro c own hown
    rw [hidle c] at hown
    cases hown
  · intro c d lc ld _ hc
    rw [hidle c] at hc
    cases hc
  · intro c own hp
    rw [hidle c] at hp
    exact hp.elim
  · intro c own hc
    rw [hidle c] at hc
    cases hc
  · intro c d lc ld _ hp
    rw [hidle c] at hp
    exact hp.elim

/-- **Repository locks exclude each other.** In every run without failing operations and stale
locks, two clients never hold granted locks of which one is exclusive, and the lock file of an
attempt that returned `Err` is gone. -/
theorem locks_exclude_each_other [DecidableEq κ] [DecidableEq τ] {s₀ s : AcquireSystem κ τ}
    {labels : List AcquireLabel} (h₀ : s₀.Initial) (hrun : Run AcquireSystem.Step s₀ labels s)
    (hok : ∀ l ∈ labels, l = .ok) :
    (∀ c d lc ld, c ≠ d → (s.clients c).Holds lc → (s.clients d).Holds ld →
        (lc.exclusive || ld.exclusive) = false) ∧
      ∀ c own, s.clients c = .failed (some own) → s.locks.lookup own.id = none := by
  have hinv : s.Inv :=
    hrun.invariant_of_labels (fun _ _ _ hl hs hst => hs.step hl hst) hok (.of_initial h₀)
  refine ⟨?_, hinv.failed⟩
  rintro c d lc ld hcd ⟨hc, hpc, rfl, huc⟩ ⟨hd, hpd, rfl, hud⟩
  by_contra hconf
  rw [Bool.not_eq_false] at hconf
  have hseen := hinv.seen c d hc.lock hd.lock hcd (by rw [hpc]; exact huc) (by rw [hpd]; exact hud)
    (by rw [hpc]; rfl) (by rw [hpd]; rfl) hconf
  rw [hpc, hpd] at hseen
  -- a client that holds its lock has nobody ahead of it
  rcases hseen with hsee | hsee
  · exact hsee
  · exact hsee

/-- A machine whose clock stands still, for the concrete runs. -/
def quietMachine : Machine := ⟨0, some "host", some "user", [], fun _ => true⟩

/-- Two clients and an empty directory. -/
def twoClients : AcquireSystem Bool Unit := ⟨fun _ => .idle, ∅, ∅⟩

/-- The first client takes an exclusive lock; the second one asks for a shared lock, sees the first
and fails. -/
theorem shared_client_yields_to_exclusive :
    ∃ (labels : List AcquireLabel) (s : AcquireSystem Bool Unit),
      Run AcquireSystem.Step twoClients labels s ∧ (∀ l ∈ labels, l = .ok) ∧
      (s.clients true).Holds (.new quietMachine 1 1 true) ∧
      s.clients false = .failed (some (.new quietMachine 2 2 false)) ∧
      s.locks.lookup 2 = none := by
  have h₁ := Run.snoc (.nil (s := twoClients)) (AcquireSystem.Step.start (c := true) true (.inl rfl))
  have h₂ := h₁.snoc (.create (c := true) quietMachine 1 1 rfl (by decide))
  have h₃ := h₂.snoc (.save (c := true) rfl)
  have h₄ := h₃.snoc (.list (c := true) rfl (List.Perm.refl [1]))
  have h₅ := h₄.snoc (.read (c := true) rfl rfl)
  have h₆ := h₅.snoc (.readDone (c := true) rfl)
  have h₇ := h₆.snoc (.checkOwn (c := true) rfl rfl)
  have h₈ := h₇.snoc (.grant (c := true) rfl)
  have h₉ := h₈.snoc (.start (c := false) false (.inl rfl))
  have h₁₀ := h₉.snoc (.create (c := false) quietMachine 2 2 rfl (by decide))
  have h₁₁ := h₁₀.snoc (.save (c := false) rfl)
  have h₁₂ := h₁₁.snoc (.list (c := false) rfl (List.Perm.refl [2, 1]))
  have h₁₃ := h₁₂.snoc (.read (c := false) rfl rfl)
  have h₁₄ := h₁₃.snoc (.read (c := false) rfl rfl)
  have h₁₅ := h₁₄.snoc (.readDone (c := false) rfl)
  have h₁₆ := h₁₅.snoc (.checkOwn (c := false) rfl rfl)
  have h₁₇ := h₁₆.snoc (.checkConflict (c := false) quietMachine rfl (by decide) rfl rfl)
  have h₁₈ := h₁₇.snoc (.abort (c := false) rfl)
  refine ⟨_, _, h₁₈, by decide, ⟨_, rfl, rfl, LockHandle.unreleased_new _ _⟩, rfl, ?_⟩
  have hinit : twoClients.Initial := ⟨fun _ => rfl, fun id hid => absurd hid (AList.notMem_empty id)⟩
  exact (locks_exclude_each_other hinit h₁₈ (by decide)).2 false _ rfl

end Mapache
