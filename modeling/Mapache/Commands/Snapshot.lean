import Mapache.Archiver.Snapshot
import Mapache.Repository.Footers

/-!
# The snapshot command

`cmd_snapshot::run_with_repo` for any number of clients on one backend. A client chooses a parent
snapshot, loads the index, starts its pack saver, runs the archiver, flushes the pack saver and,
when both succeeded, writes the snapshot file. The snapshot command only takes a non-exclusive lock,
so the steps of the clients interleave freely; a client that stops takes no further step.

Every snapshot on the backend is complete in every state of a run (`snapshots_stay_complete`),
provided that the run starts in a consistent repository: deduplication trusts the index that the
client loads, and nothing looks for the packs that the index names.
-/

set_option autoImplicit false

namespace Mapache

open Lib

/-- Where the command stands once the pack saver runs. -/
inductive RunPhase where
  | archiving
  /-- The archiver has returned the root tree, or an error. -/
  | flushing (tree : Option ID)
  /-- The flush has succeeded, the snapshot is about to be written. -/
  | saving (tree : ID)
  | finished

/-- A client of the snapshot command. -/
inductive Client (ρ : Type) (n : Nat) where
  /-- About to choose the parent snapshot. -/
  | resolving
  /-- About to load the index. -/
  | reloading (parent : Option Snapshot)
  | running (parent : Option Snapshot) (phase : RunPhase) (archiver : Archiver ρ)
      (pipe : Pipe (Option ρ) n)

/-- What a client does in a step. -/
inductive ClientEvent (ρ : Type) where
  | command
  | work (l : PipeEvent (Option ρ))
  | saveSnapshot (tree : ID)

/-- The calls of the step pass the plaintexts of their IDs. -/
def ClientEvent.Honest {ρ : Type} (env : Env) (plain : ID → Bytes) : ClientEvent ρ → Prop
  | .work l => l.Honest env plain
  | _ => True

/-- The event of a step of the archiver. -/
def ClientEvent.ofArchiver {ρ : Type} : Option (PipeEvent (Option ρ)) → ClientEvent ρ
  | none => .command
  | some l => .work l

namespace Client

variable {ρ : Type} {n : Nat}

/-- A step of a client. -/
inductive Step [DecidableEq ρ] (env : Env) (codec : TreeCodec) :
    Backend → Client ρ n → ClientEvent ρ → Backend → Client ρ n → Prop where
  | resolve {b : Backend} (parent : Option Snapshot) :
      (∀ snap, parent = some snap → ∃ sid, b.snapshots.lookup sid = some snap) →
      Step env codec b .resolving .command b (.reloading parent)
  /-- Files are only added, so reading the listed index files is one step. -/
  | reload {b : Backend} {parent : Option Snapshot} (num : b.Instances) (root : Path)
      (counts : Nat × List (Path × Nat)) :
      Step env codec b (.reloading parent) .command b
        (.running parent .archiving (.init parent root counts)
          (.init (b.reloadMasterIndex env.toIndexEnv num)))
  /-- Threads of the pool may go on after the archiver has returned. -/
  | archive {b : Backend} {parent : Option Snapshot} {phase : RunPhase} {a a' : Archiver ρ}
      {p p' : Pipe (Option ρ) n} {l : Option (PipeEvent (Option ρ))} :
      Archiver.Step env codec b a p l a' p' →
      Step env codec b (.running parent phase a p) (.ofArchiver l) b (.running parent phase a' p')
  | saver {b : Backend} {parent : Option Snapshot} {phase : RunPhase} {a : Archiver ρ}
      {p p' : Pipe (Option ρ) n} : Pipe.SaverStep env p p' →
      Step env codec b (.running parent phase a p) (.work .saver) b (.running parent phase a p')
  | worker {b b' : Backend} {parent : Option Snapshot} {phase : RunPhase} {a : Archiver ρ}
      {p p' : Pipe (Option ρ) n} {l : PipeEvent (Option ρ)} : Pipe.WorkerStep env b p l b' p' →
      Step env codec b (.running parent phase a p) (.work l) b' (.running parent phase a p')
  | archived {b : Backend} {parent : Option Snapshot} {a : Archiver ρ} {p : Pipe (Option ρ) n}
      {t : ID} : a.phase = .waiting → a.serializer.rootTreeId = some t →
      Step env codec b (.running parent .archiving a p) .command b
        (.running parent (.flushing (some t)) a p)
  | archiveFail {b : Backend} {parent : Option Snapshot} {a : Archiver ρ} {p : Pipe (Option ρ) n} :
      Step env codec b (.running parent .archiving a p) .command b
        (.running parent (.flushing none) a p)
  | flush {b b' : Backend} {parent : Option Snapshot} {t : Option ID} {a : Archiver ρ}
      {p p' : Pipe (Option ρ) n} {l : PipeEvent (Option ρ)} : Pipe.FlushStep b p l b' p' →
      Step env codec b (.running parent (.flushing t) a p) (.work l) b'
        (.running parent (.flushing t) a p')
  | flushed {b : Backend} {parent : Option Snapshot} {t : ID} {a : Archiver ρ}
      {p : Pipe (Option ρ) n} : p.flush = .finished true →
      Step env codec b (.running parent (.flushing (some t)) a p) .command b
        (.running parent (.saving t) a p)
  /-- The flush or the archiver failed. -/
  | fail {b : Backend} {parent : Option Snapshot} {t : Option ID} {a : Archiver ρ}
      {p : Pipe (Option ρ) n} {ok : Bool} : p.flush = .finished ok → (ok = false ∨ t = none) →
      Step env codec b (.running parent (.flushing t) a p) .command b (.running parent .finished a p)
  /-- `skip_if_unchanged`. -/
  | skip {b : Backend} {snap : Snapshot} {a : Archiver ρ} {p : Pipe (Option ρ) n} :
      Step env codec b (.running (some snap) (.saving snap.tree) a p) .command b
        (.running (some snap) .finished a p)
  | save {b : Backend} {parent : Option Snapshot} {t : ID} {a : Archiver ρ} {p : Pipe (Option ρ) n}
      (sid : ID) :
      Step env codec b (.running parent (.saving t) a p) (.saveSnapshot t) (b.saveSnapshot sid ⟨t⟩)
        (.running parent .finished a p)
  /-- The write fails; one that reached the backend all the same is a `save`. -/
  | saveFail {b : Backend} {parent : Option Snapshot} {t : ID} {a : Archiver ρ}
      {p : Pipe (Option ρ) n} :
      Step env codec b (.running parent (.saving t) a p) .command b (.running parent .finished a p)

end Client

/-! ## The invariant of a client -/

section Inv

variable {ρ : Type} {n : Nat} {env : Env} {codec : TreeCodec} {plain : ID → Bytes}

/-- The tree that the command is about to record is safe. -/
def RunPhase.Inv (codec : TreeCodec) (plain : ID → Bytes) (b : Backend)
    (p : Pipe (Option ρ) n) : RunPhase → Prop
  | .flushing (some t) => SafeTree codec plain (p.Safe b) t
  | .saving t => SafeTree codec plain (p.Safe b) t ∧ p.flush = .finished true
  | .archiving | .flushing none | .finished => True

/-- The invariant of a client. -/
def Client.Inv (env : Env) (codec : TreeCodec) (plain : ID → Bytes) (b : Backend) : Client ρ n → Prop
  | .resolving => True
  | .reloading parent =>
    ∀ snap, parent = some snap → SafeTree codec plain (b.Indexed Set.univ) snap.tree
  | .running _ phase a p => p.Inv env plain Set.univ Set.univ b ∧
      a.Grounded codec plain (p.Safe b) (p.callers none).blob ∧ phase.Inv codec plain b p

variable {b b' : Backend} {c c' : Client ρ n} {e : ClientEvent ρ}

/-- What is safe stays so while blobs stay known and listed. -/
theorem RunPhase.Inv.mono {p p' : Pipe (Option ρ) n} {phase : RunPhase}
    (h : phase.Inv codec plain b p) (hsafe : ∀ id, p.Safe b id → p'.Safe b' id)
    (hflush : p'.flush = p.flush) : phase.Inv codec plain b' p' := by
  cases phase with
  | flushing t =>
    cases t with
    | none => trivial
    | some t => exact fun id hid => hsafe id (h id hid)
  | saving t => exact ⟨fun id hid => hsafe id (h.1 id hid), hflush.trans h.2⟩
  | archiving | finished => trivial

/-- Other clients only add files. -/
theorem Client.Inv.keeps (h : c.Inv env codec plain b) (hb : Backend.Keeps Set.univ b b') :
    c.Inv env codec plain b' := by
  cases c with
  | resolving => trivial
  | reloading parent => exact fun snap hsnap id hid => hb.indexed id (h snap hsnap id hid)
  | running parent phase a p =>
    have hsafe : ∀ id, p.Safe b id → p.Safe b' id := by
      rintro id (hk | hi)
      · exact Or.inl hk
      · exact Or.inr (hb.indexed id hi)
    exact ⟨h.1.keeps hb, h.2.1.mono hsafe, h.2.2.mono hsafe rfl⟩

/-- A step of the pipeline keeps what is safe. -/
theorem Pipe.Inv.safe_step [DecidableEq ρ] {p p' : Pipe (Option ρ) n} {l : PipeEvent (Option ρ)}
    (h : p.Inv env plain Set.univ Set.univ b) (hstep : Pipe.Step env b p l b' p') :
    ∀ id, p.Safe b id → p'.Safe b' id := by
  have hkeep : Backend.Keeps Set.univ b b' := (h.sound.writes hstep).keeps
  rintro id (hk | hi)
  · exact Or.inl (hk.step h.sound hstep)
  · exact Or.inr (hkeep.indexed id hi)

/-- A step of the pipeline in which no caller moves. -/
theorem Archiver.Grounded.pipeStep [DecidableEq ρ] {a : Archiver ρ} {p p' : Pipe (Option ρ) n}
    {l : PipeEvent (Option ρ)} (h : a.Grounded codec plain (p.Safe b) (p.callers none).blob)
    (hinv : p.Inv env plain Set.univ Set.univ b) (hstep : Pipe.Step env b p l b' p')
    (hcallers : p'.callers = p.callers) :
    a.Grounded codec plain (p'.Safe b') (p'.callers none).blob := by
  rw [hcallers]
  exact h.mono (hinv.safe_step hstep)

/-- **Every step of a client keeps its invariant**, given that the snapshots on the backend are
complete. -/
theorem Client.Inv.step [DecidableEq ρ] (h : c.Inv env codec plain b)
    (hb : b.IndexSound env plain Set.univ Set.univ)
    (hsnaps : ∀ sid snap, b.snapshots.lookup sid = some snap →
      SafeTree codec plain (b.Indexed Set.univ) snap.tree)
    (he : e.Honest env plain) (hstep : Client.Step env codec b c e b' c') :
    c'.Inv env codec plain b' := by
  cases hstep with
  | resolve parent hparent =>
    intro snap hsnap
    obtain ⟨sid, hsid⟩ := hparent snap hsnap
    exact hsnaps sid snap hsid
  | @reload parent num root counts =>
    have hinv : (SaveSystem.start env b num : SaveSystem (Option ρ) n).Inv env plain :=
      .start fun fid f hf e he => (hb fid f trivial hf e he).2
    refine ⟨hinv.1, Archiver.Grounded.init fun snap hsnap id hid => ?_, trivial⟩
    exact Or.inr (h snap hsnap id hid)
  | @archive parent phase a a' p p' l harch =>
    refine ⟨?_, h.2.1.step h.1 harch, ?_⟩
    · rcases harch.pipe with rfl | ⟨e, rfl, hcall⟩
      · exact h.1
      · exact h.1.step he (.call hcall)
    · rcases harch.pipe with rfl | ⟨e, rfl, hcall⟩
      · exact h.2.2
      · exact h.2.2.mono (h.1.safe_step (.call hcall)) hcall.flush_eq
  | saver hsaver =>
    exact ⟨h.1.step (l := .saver) trivial (.saver hsaver),
      h.2.1.pipeStep h.1 (.saver hsaver) hsaver.frame.1,
      h.2.2.mono (h.1.safe_step (.saver hsaver)) hsaver.frame.2⟩
  | worker hworker =>
    obtain ⟨-, -, -, hcallers, -, hflush, -⟩ := hworker.frame
    exact ⟨h.1.step he (.worker hworker), h.2.1.pipeStep h.1 (.worker hworker) hcallers,
      h.2.2.mono (h.1.safe_step (.worker hworker)) hflush⟩
  | archived hphase hroot => exact ⟨h.1, h.2.1, h.2.1.root _ hroot⟩
  | archiveFail => exact ⟨h.1, h.2.1, trivial⟩
  | @flush _ parent t a p p' l hflush =>
    have hsafe := h.1.safe_step (.flush hflush)
    refine ⟨h.1.step he (.flush hflush), h.2.1.pipeStep h.1 (.flush hflush) hflush.callers_eq, ?_⟩
    cases t with
    | none => trivial
    | some t => exact fun id hid => hsafe id (h.2.2 id hid)
  | flushed hflush => exact ⟨h.1, h.2.1, h.2.2, hflush⟩
  | fail hflush hwhy => exact ⟨h.1, h.2.1, trivial⟩
  | skip => exact ⟨h.1, h.2.1, trivial⟩
  | @save parent t a p sid =>
    exact ⟨h.1.keeps Backend.keeps_saveSnapshot, h.2.1, trivial⟩
  | saveFail => exact ⟨h.1, h.2.1, trivial⟩

/-- What a step of a client writes: files of its pipeline, or a snapshot whose closure is listed in
the index files. -/
theorem Client.Inv.writes [DecidableEq ρ] (h : c.Inv env codec plain b)
    (hstep : Client.Step env codec b c e b' c') :
    Pipe.Writes env plain Set.univ b b' ∨
      ∃ sid t, SafeTree codec plain (b.Indexed Set.univ) t ∧ b' = b.saveSnapshot sid ⟨t⟩ := by
  cases hstep with
  | worker hworker => exact Or.inl (h.1.sound.writes (.worker hworker))
  | flush hflush => exact Or.inl (h.1.sound.writes (.flush hflush))
  | @save parent t a p sid =>
    refine Or.inr ⟨sid, t, fun id hid => ?_, rfl⟩
    -- after the flush everything that is known is listed
    rcases h.2.2.1 id hid with hk | hi
    · exact h.1.indexed_of_flush h.2.2.2 hk
    · exact hi
  | _ => exact Or.inl .none

end Inv

/-! ## Any number of clients -/

/-- The clients with their backend. -/
structure SnapshotSystem (ι ρ : Type) (n : ι → Nat) where
  backend : Backend
  clients : (i : ι) → Client ρ (n i)

/-- A step of one of the clients. -/
inductive SnapshotSystem.Step {ι ρ : Type} {n : ι → Nat} [DecidableEq ι] [DecidableEq ρ] (env : Env)
    (codec : TreeCodec) : SnapshotSystem ι ρ n → ι × ClientEvent ρ → SnapshotSystem ι ρ n → Prop where
  | client {s : SnapshotSystem ι ρ n} {i : ι} {e : ClientEvent ρ} {b' : Backend}
      {c' : Client ρ (n i)} : Client.Step env codec s.backend (s.clients i) e b' c' →
      Step env codec s (i, e) ⟨b', Function.update s.clients i c'⟩

/-- The blob is listed in an index file, at a place of an existing pack that decodes to it. -/
def Backend.Available (env : Env) (plain : ID → Bytes) (b : Backend) (id : ID) : Prop :=
  ∃ fid f l, b.index.lookup fid = some f ∧ (id, l) ∈ f.entries ∧
    b.loadFromPack env l = some (plain id)

/-- Everything in the closure of every snapshot is available. -/
def Backend.SnapshotsComplete (env : Env) (codec : TreeCodec) (plain : ID → Bytes) (b : Backend) :
    Prop :=
  ∀ sid snap, b.snapshots.lookup sid = some snap → SafeTree codec plain (b.Available env plain)
    snap.tree

/-- The client has saved the blob and stored it: its flush has returned `Ok`, and every blob that
one of its calls saved is available. -/
def Client.Flushed {ρ : Type} {n : Nat} (env : Env) (plain : ID → Bytes) (b : Backend) :
    Client ρ n → Prop
  | .running _ _ _ p => p.flush = .finished true ∧ ∀ c ∈ p.saved, b.Available env plain c.id
  | _ => False

/-- Every pack that the client is about to upload is below 4 GiB. -/
def Client.Small {ρ : Type} {n : Nat} : Client ρ n → Prop
  | .running _ _ _ p => p.Small
  | _ => True

namespace SnapshotSystem

variable {ι ρ : Type} {n : ι → Nat} {env : Env} {codec : TreeCodec} {plain : ID → Bytes}

/-- The invariant of the clients and their backend. -/
structure Inv (env : Env) (codec : TreeCodec) (plain : ID → Bytes) (s : SnapshotSystem ι ρ n) :
    Prop where
  index : s.backend.IndexSound env plain Set.univ Set.univ
  snapshots : ∀ sid snap, s.backend.snapshots.lookup sid = some snap →
    SafeTree codec plain (s.backend.Indexed Set.univ) snap.tree
  clients : ∀ i, (s.clients i).Inv env codec plain s.backend

theorem Inv.available {s : SnapshotSystem ι ρ n} (h : s.Inv env codec plain) {id : ID}
    (hid : s.backend.Indexed Set.univ id) : s.backend.Available env plain id := by
  obtain ⟨fid, f, l, -, hf, hl⟩ := hid
  exact ⟨fid, f, l, hf, hl, (h.index fid f trivial hf _ hl).2.loadFromPack⟩

theorem Inv.complete {s : SnapshotSystem ι ρ n} (h : s.Inv env codec plain) :
    s.backend.SnapshotsComplete env codec plain :=
  fun sid snap hsnap id hid => h.available (h.snapshots sid snap hsnap id hid)

variable [DecidableEq ι] [DecidableEq ρ]

theorem Inv.step {s s' : SnapshotSystem ι ρ n} {l : ι × ClientEvent ρ} (hl : l.2.Honest env plain)
    (h : s.Inv env codec plain) (hstep : Step env codec s l s') : s'.Inv env codec plain := by
  cases hstep with
  | @client i e b' c' hclient =>
    have hself := (h.clients i).step h.index h.snapshots hl hclient
    have hwrites := (h.clients i).writes hclient
    -- the files of the step, and that the other clients can rely on what they have seen
    have hfiles : b'.IndexSound env plain Set.univ Set.univ ∧ Backend.Keeps Set.univ s.backend b' ∧
        ∀ sid snap, b'.snapshots.lookup sid = some snap →
          SafeTree codec plain (b'.Indexed Set.univ) snap.tree := by
      rcases hwrites with hw | ⟨sid, t, ht, rfl⟩
      · have hkeep : Backend.Keeps Set.univ s.backend b' := hw.keeps
        refine ⟨hw.indexSound h.index, hkeep, fun sid snap hsnap id hid => ?_⟩
        rw [hw.snapshots] at hsnap
        exact hkeep.indexed id (h.snapshots sid snap hsnap id hid)
      · refine ⟨h.index, Backend.keeps_saveSnapshot, ?_⟩
        intro sid' snap hsnap id hid
        rw [Backend.saveSnapshot, Table.lookup_insert_eq_ite] at hsnap
        split at hsnap
        · cases hsnap
          exact ht id hid
        · exact h.snapshots sid' snap hsnap id hid
    refine ⟨hfiles.1, hfiles.2.2, fun j => ?_⟩
    by_cases heq : j = i
    · subst heq
      simp only [Function.update_self]
      exact hself
    · simp only [Function.update_of_ne heq]
      exact (h.clients j).keeps hfiles.2.1

/-- The invariant holds in every state of a run from a consistent repository with complete
snapshots. -/
theorem inv_run {s₀ s : SnapshotSystem ι ρ n} {ls : List (ι × ClientEvent ρ)}
    (hconsistent : s₀.backend.Consistent env plain)
    (hcomplete : s₀.backend.SnapshotsComplete env codec plain)
    (hstart : ∀ i, s₀.clients i = .resolving) (hls : ∀ l ∈ ls, l.2.Honest env plain)
    (hrun : Run (Step env codec) s₀ ls s) : s.Inv env codec plain := by
  have hinit : s₀.Inv env codec plain := by
    refine ⟨fun fid f _ hf e he => ⟨trivial, hconsistent fid f hf e he⟩, ?_, fun i => ?_⟩
    · intro sid snap hsnap id hid
      obtain ⟨fid, f, l, hf, hl, -⟩ := hcomplete sid snap hsnap id hid
      exact ⟨fid, f, l, trivial, hf, hl⟩
    · rw [hstart i]
      trivial
  exact hrun.invariant_of_labels (Q := fun l => l.2.Honest env plain)
    (fun _ _ _ hl h hstep => h.step hl hstep) hls hinit

/-- **Every snapshot is complete in every state of a run.** In a run of any number of clients from a
consistent repository with complete snapshots, every snapshot on the backend has its closure in
index files whose packs hold the blobs; and a client writes a snapshot only when its flush has
returned `Ok` and everything it saved is stored. -/
theorem snapshots_stay_complete {s₀ s : SnapshotSystem ι ρ n} {ls : List (ι × ClientEvent ρ)}
    (hconsistent : s₀.backend.Consistent env plain)
    (hcomplete : s₀.backend.SnapshotsComplete env codec plain)
    (hstart : ∀ i, s₀.clients i = .resolving) (hls : ∀ l ∈ ls, l.2.Honest env plain)
    (hrun : Run (Step env codec) s₀ ls s) :
    s.backend.SnapshotsComplete env codec plain ∧
      ∀ i t s', Step env codec s (i, .saveSnapshot t) s' →
        (s.clients i).Flushed env plain s.backend := by
  have hinv := inv_run hconsistent hcomplete hstart hls hrun
  refine ⟨hinv.complete, ?_⟩
  intro i t s' hstep
  have hi := hinv.clients i
  cases hstep with
  | client hclient =>
    generalize s.clients i = c at hi hclient
    generalize hev : (ClientEvent.saveSnapshot t : ClientEvent ρ) = ev at hclient
    cases hclient with
    | save sid =>
      refine ⟨hi.2.2.2, fun c hc => ?_⟩
      exact hinv.available (hi.1.indexed_of_flush hi.2.2.2 (hi.1.known.saved c hc))
    | @archive parent phase a a' p p' l harch => cases l <;> cases hev
    | _ => cases hev

end SnapshotSystem

/-! ## Concrete runs -/

/-- The serialization of a tree without nodes. -/
def emptyTreeBytes : Bytes := [0x7b, 0x22, 0x6e, 0x6f, 0x64, 0x65, 0x73, 0x22, 0x3a, 0x5b, 0x5d, 0x7d]

/-- A serialization that only knows the tree without nodes. -/
def sampleCodec : TreeCodec where
  toVec := fun nodes => if nodes = [] then some emptyTreeBytes else none
  fromSlice := fun bytes => if bytes = emptyTreeBytes then some [] else none
  fromSlice_toVec := by
    intro nodes bytes h
    split at h
    · cases h
      rename_i hnil
      rw [if_pos rfl, hnil]
    · cases h

/-- The bytes behind the IDs of the concrete runs. The tree without nodes has the ID 123. -/
def emptyTreePlain (_ : ID) : Bytes := emptyTreeBytes

/-- An index file that lists the tree without nodes in a pack that is gone. -/
def danglingIndex : IndexFile := ⟨[⟨7, [⟨123, .tree, 0, 13, 12⟩]⟩]⟩

/-- A repository whose only file is `danglingIndex`. -/
def danglingBackend : Backend := emptyBackend.saveIndex 8 danglingIndex

theorem lookup_danglingBackend {k : ID} {f : IndexFile}
    (h : danglingBackend.index.lookup k = some f) : k = 8 ∧ f = danglingIndex := by
  rw [danglingBackend, Backend.saveIndex, Table.lookup_insert_eq_ite] at h
  split at h
  · cases h
    exact ⟨‹_›, rfl⟩
  · cases h

/-- The one file gets the instance ID 1. -/
def danglingInstances : danglingBackend.Instances where
  inst := fun _ => 1
  next := 2
  inj := by
    intro i f j g hi hj _
    rw [(lookup_danglingBackend hi).1, (lookup_danglingBackend hj).1]
  lt := fun _ _ _ => Nat.one_lt_two

section Sample

open SnapshotSystem Client

/-- One client with its backend. -/
def solo (b : Backend) (c : Client Unit 1) : SnapshotSystem Unit Unit (fun _ => 1) := ⟨b, fun _ => c⟩

theorem solo_step {codec : TreeCodec} {b b' : Backend} {c c' : Client Unit 1}
    {e : ClientEvent Unit} (hstep : Client.Step sampleEnv codec b c e b' c') :
    SnapshotSystem.Step sampleEnv codec (solo b c) ((), e) (solo b' c') := by
  have hsolo : solo b' c' = ⟨b', Function.update (solo b c).clients () c'⟩ := by
    unfold solo
    congr 1
  rw [hsolo]
  exact .client hstep

theorem solo_snoc {codec : TreeCodec} {s₀ : SnapshotSystem Unit Unit (fun _ => 1)}
    {ls : List (Unit × ClientEvent Unit)} {b b' : Backend} {c c' : Client Unit 1}
    {e : ClientEvent Unit}
    (h : Run (SnapshotSystem.Step sampleEnv codec) s₀ ls (solo b c))
    (hstep : Client.Step sampleEnv codec b c e b' c') :
    Run (SnapshotSystem.Step sampleEnv codec) s₀ (ls ++ [((), e)]) (solo b' c') := by
  exact h.snoc (solo_step hstep)

/-- **A damaged index makes an incomplete snapshot.** The repository has no snapshot and an index
file that lists a tree in a pack that is gone. A client that archives an empty directory finds its
tree in the index, does not store it, and writes the snapshot. -/
theorem incomplete_snapshot_of_dangling_index :
    danglingBackend.SnapshotsComplete sampleEnv sampleCodec emptyTreePlain ∧
    ∃ ls s, Run (SnapshotSystem.Step sampleEnv sampleCodec) (solo danglingBackend .resolving) ls s ∧
      (∀ l ∈ ls, l.2.Honest sampleEnv emptyTreePlain) ∧
      ¬ s.backend.SnapshotsComplete sampleEnv sampleCodec emptyTreePlain := by
  refine ⟨fun sid snap hsnap => (by cases hsnap), ?_⟩
  have h₀ : Run (SnapshotSystem.Step sampleEnv sampleCodec) (solo danglingBackend .resolving) [] _ :=
    .nil
  have h₁ := solo_snoc h₀ (.resolve none fun _ h => by cases h)
  have h₂ := solo_snoc h₁ (.reload danglingInstances [] (0, []))
  -- the archiver saves the root, which is taken for known
  have a₁ := solo_snoc h₂ (.archive (.finalizeRoot rfl rfl))
  have a₂ := solo_snoc a₁ (.archive (.complete rfl rfl))
  have a₃ := solo_snoc a₂ (.archive (.save rfl .nil .nil rfl (.call _ _ _ rfl)))
  have a₄ := solo_snoc a₃ (.archive (.treeCaller .look))
  have a₅ := solo_snoc a₄ (.archive (.treeCaller .look))
  have a₆ := solo_snoc a₅ (.archive (.treeCaller (.ret rfl)))
  have a₇ := solo_snoc a₆ (.archived rfl rfl)
  -- there is nothing to store
  have p₁ := solo_snoc a₇ (.flush (.take rfl))
  have p₂ := solo_snoc p₁ (.saver (.start rfl))
  have p₃ := solo_snoc p₂
    (.saver (.close rfl rfl rfl fun k => match k with | none => rfl | some _ => rfl))
  have p₄ := solo_snoc p₃ (.saver (.dispatchEmpty rfl rfl))
  have p₅ := solo_snoc p₄ (.saver (.dispatchEmpty rfl rfl))
  have p₆ := solo_snoc p₅ (.worker (.closed (w := 0) rfl rfl rfl))
  have p₇ := solo_snoc p₆ (.saver (.join rfl fun w => match w with | ⟨0, _⟩ => rfl))
  have p₈ := solo_snoc p₇ (.flush (.joinOk rfl rfl))
  have p₉ := solo_snoc p₈ (.flush (.done rfl))
  have f₁ := solo_snoc p₉ (.flushed rfl)
  have f₂ := solo_snoc f₁ (.save 50)
  refine ⟨_, _, f₂, ?_, fun hcomplete => ?_⟩
  · simp only [List.nil_append, List.cons_append, List.forall_mem_cons, ClientEvent.Honest,
      ClientEvent.ofArchiver, PipeEvent.Honest, List.not_mem_nil, false_implies, implies_true,
        and_true,
      true_and]
    exact ⟨rfl, by decide⟩
  · obtain ⟨fid, f, l, hf, hl, hload⟩ := hcomplete 50 ⟨123⟩ rfl 123 (.tree .root)
    obtain ⟨-, rfl⟩ := lookup_danglingBackend hf
    have hentries : danglingIndex.entries = [(123, ⟨7, 0, 13, 12, .tree⟩)] := rfl
    rw [hentries, List.mem_singleton] at hl
    cases hl
    cases hload

/-- A client of which no worker is about to upload. -/
theorem small_of_idle {parent : Option Snapshot} {phase : RunPhase} {a : Archiver Unit}
    {p : Pipe (Option Unit) 1} (h : ∀ pack, p.workers 0 ≠ .uploading pack) :
    (Client.running parent phase a p).Small := by
  intro w pack hw
  rw [Subsingleton.elim w 0] at hw
  exact absurd hw (h pack)

/-- A client of which the only worker is about to upload a small pack. -/
theorem small_of_uploading {parent : Option Snapshot} {phase : RunPhase} {a : Archiver Unit}
    {p : Pipe (Option Unit) 1} {pack : FinalizedPack} (h : p.workers 0 = .uploading pack)
    (hlen : pack.data.length < 2 ^ 32) : (Client.running parent phase a p).Small := by
  intro w pack' hw
  rw [Subsingleton.elim w 0, h] at hw
  cases hw
  exact hlen

/-- A run whose uploads are small goes on. -/
theorem small_snoc {s₀ : SnapshotSystem Unit Unit (fun _ => 1)}
    {ls : List (Unit × ClientEvent Unit)} {b b' : Backend} {c c' : Client Unit 1}
    {e : ClientEvent Unit}
    (h : Run (Guarded (SnapshotSystem.Step sampleEnv sampleCodec) fun s l => (s.clients l.1).Small) s₀
      ls (solo b c))
    (hsmall : c.Small) (hstep : Client.Step sampleEnv sampleCodec b c e b' c') :
    Run (Guarded (SnapshotSystem.Step sampleEnv sampleCodec) fun s l => (s.clients l.1).Small) s₀
      (ls ++ [((), e)]) (solo b' c') := by
  exact h.snoc ⟨solo_step hstep, hsmall⟩

/-- The same client in a repository without files: the tree is stored in the pack 1 and listed in
the index file 9, and the client is about to write the snapshot. -/
theorem exists_small_run_emptyTree : ∃ ls b c c' f data,
    Run (Guarded (SnapshotSystem.Step sampleEnv sampleCodec) fun s l => (s.clients l.1).Small)
      (solo emptyBackend .resolving) ls (solo b c) ∧
    c.Small ∧ b.Fresh 10 ∧ (∀ l ∈ ls, l.2.Honest sampleEnv emptyTreePlain) ∧
    b.index = (∅ : Table ID IndexFile).insert 9 f ∧ f.entries = [(123, ⟨1, 0, 13, 12, .tree⟩)] ∧
    b.packs = (∅ : Table ID Bytes).insert 1 data ∧
    Packer.parsePackFooter headerStorage data = some [⟨123, .tree, 0, 13, 12⟩] ∧
    Client.Step sampleEnv sampleCodec b c (.saveSnapshot 123) (b.saveSnapshot 50 ⟨123⟩) c' := by
  have h₀ : Run (Guarded (SnapshotSystem.Step sampleEnv sampleCodec) fun s l => (s.clients l.1).Small)
      (solo emptyBackend .resolving) [] _ := .nil
  have h₁ := small_snoc h₀ trivial (.resolve none fun _ h => by cases h)
  have h₂ := small_snoc h₁ trivial (.reload emptyInstances [] (0, []))
  -- the archiver saves the root
  have a₁ := small_snoc h₂ (small_of_idle fun _ => nofun) (.archive (.finalizeRoot rfl rfl))
  have a₂ := small_snoc a₁ (small_of_idle fun _ => nofun) (.archive (.complete rfl rfl))
  have a₃ := small_snoc a₂ (small_of_idle fun _ => nofun)
    (.archive (.save rfl .nil .nil rfl (.call _ _ _ rfl)))
  have a₄ := small_snoc a₃ (small_of_idle fun _ => nofun) (.archive (.treeCaller .look))
  have a₅ := small_snoc a₄ (small_of_idle fun _ => nofun) (.archive (.treeCaller .look))
  have a₆ := small_snoc a₅ (small_of_idle fun _ => nofun)
    (.archive (.treeCaller (.clone sampleNonce rfl rfl rfl)))
  have a₇ := small_snoc a₆ (small_of_idle fun _ => nofun) (.archive (.treeCaller (.send rfl rfl)))
  have a₈ := small_snoc a₇ (small_of_idle fun _ => nofun) (.archive (.treeCaller .look))
  have a₉ := small_snoc a₈ (small_of_idle fun _ => nofun) (.archive (.treeCaller .look))
  have b₁ := small_snoc a₉ (small_of_idle fun _ => nofun) (.archive (.treeCaller (.insert rfl)))
  have b₂ := small_snoc b₁ (small_of_idle fun _ => nofun) (.archive (.treeCaller (.ret rfl)))
  have b₃ := small_snoc b₂ (small_of_idle fun _ => nofun) (.archived rfl rfl)
  -- the saver packs the tree, and a worker uploads and registers it
  have p₁ := small_snoc b₃ (small_of_idle fun _ => nofun) (.flush (.take rfl))
  have p₂ := small_snoc p₁ (small_of_idle fun _ => nofun) (.saver (.start rfl))
  have p₃ := small_snoc p₂ (small_of_idle fun _ => nofun) (.saver (.add rfl rfl rfl rfl))
  have p₄ := small_snoc p₃ (small_of_idle fun _ => nofun)
    (.saver (.close rfl rfl rfl fun k => match k with | none => rfl | some _ => rfl))
  have p₅ := small_snoc p₄ (small_of_idle fun _ => nofun) (.saver (.dispatchEmpty rfl rfl))
  have p₆ := small_snoc p₅ (small_of_idle fun _ => nofun) (.saver (.take rfl (by decide) rfl))
  have p₇ := small_snoc p₆ (small_of_idle fun _ => nofun) (.saver (.send rfl))
  have w₁ := small_snoc p₇ (small_of_idle fun _ => nofun) (.worker (.recv (w := 0) rfl rfl))
  have w₂ := small_snoc w₁ (small_of_idle fun _ => nofun)
    (.worker (.finalize (w := 0) sampleNonce samplePadding rfl rfl rfl))
  have w₃ := small_snoc w₂ (small_of_uploading rfl (by decide +kernel))
    (.worker (.upload (w := 0) rfl ⟨rfl, rfl, by decide⟩))
  have w₄ := small_snoc w₃ (small_of_idle fun _ => nofun) (.worker (.register (w := 0) false rfl))
  have w₅ := small_snoc w₄ (small_of_idle fun _ => nofun) (.worker (.recycle (w := 0) rfl rfl))
  have w₆ := small_snoc w₅ (small_of_idle fun _ => nofun) (.worker (.closed (w := 0) rfl rfl rfl))
  have w₇ := small_snoc w₆ (small_of_idle fun _ => nofun)
    (.saver (.join rfl fun w => match w with | ⟨0, _⟩ => rfl))
  -- the flush writes the index, and the snapshot follows
  have f₁ := small_snoc w₇ (small_of_idle fun _ => nofun) (.flush (.joinOk rfl rfl))
  have f₂ := small_snoc f₁ (small_of_idle fun _ => nofun)
    (.flush (.persist 9 rfl ⟨rfl, rfl, by decide⟩))
  have f₃ := small_snoc f₂ (small_of_idle fun _ => nofun) (.flush (.mark rfl))
  have f₄ := small_snoc f₃ (small_of_idle fun _ => nofun) (.flush (.done rfl))
  have f₅ := small_snoc f₄ (small_of_idle fun _ => nofun) (.flushed rfl)
  refine ⟨_, _, _, _, _, _, f₅, small_of_idle fun _ => nofun, ⟨rfl, rfl, by decide⟩, ?_, rfl, rfl, rfl,
    by decide +kernel, .save 50⟩
  simp only [List.nil_append, List.cons_append, List.forall_mem_cons, ClientEvent.Honest,
    ClientEvent.ofArchiver, PipeEvent.Honest, List.not_mem_nil, false_implies, implies_true, and_true,
    true_and]
  exact ⟨rfl, by decide⟩

/-- The run with the write of the snapshot. -/
theorem exists_run_emptyTree : ∃ ls b c f,
    Run (SnapshotSystem.Step sampleEnv sampleCodec) (solo emptyBackend .resolving) ls (solo b c) ∧
    (∀ l ∈ ls, l.2.Honest sampleEnv emptyTreePlain) ∧ b.snapshots.lookup 50 = some ⟨123⟩ ∧
    b.index = (∅ : Table ID IndexFile).insert 9 f := by
  obtain ⟨ls, b, c, c', f, -, hrun, -, -, hhonest, hindex, -, -, -, hsave⟩ := exists_small_run_emptyTree
  have hrun' := hrun.map id id fun _ _ _ hstep => hstep.1
  rw [List.map_id] at hrun'
  refine ⟨_, b.saveSnapshot 50 ⟨123⟩, c', f, solo_snoc hrun' hsave, fun l hl => ?_,
    AList.lookup_insert _, hindex⟩
  rcases List.mem_append.mp hl with hl | hl
  · exact hhonest l hl
  · rw [List.mem_singleton] at hl
    subst hl
    trivial

/-- The snapshot of the concrete run is complete. -/
theorem sample_snapshot_is_complete : ∃ s : SnapshotSystem Unit Unit (fun _ => 1),
    s.backend.snapshots.lookup 50 = some ⟨123⟩ ∧
    s.backend.SnapshotsComplete sampleEnv sampleCodec emptyTreePlain := by
  obtain ⟨ls, b, c, f, hrun, hhonest, hsnap, -⟩ := exists_run_emptyTree
  have hconsistent : emptyBackend.Consistent sampleEnv emptyTreePlain := fun _ _ hf => by cases hf
  have hcomplete : emptyBackend.SnapshotsComplete sampleEnv sampleCodec emptyTreePlain :=
    fun _ _ hsnap => by cases hsnap
  exact ⟨_, hsnap,
    (snapshots_stay_complete hconsistent hcomplete (fun _ => rfl) hhonest hrun).1⟩

end Sample

end Mapache
