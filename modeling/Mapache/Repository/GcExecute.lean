import Mapache.Repository.GcScan
import Mapache.Repository.Loader
import Mapache.Repository.SaveBlob

/-!
# The execution of a garbage collection

`Plan::execute` over the pack pipeline of its client. The unused packs are deleted; then the index
is cleaned in memory, the live blobs of the obsolete packs are loaded and saved again, the pipeline
is flushed, and the old index files and the obsolete packs are deleted. Deletions of one kind run
concurrently and complete in any order, and so do the chunks of the repacking and their blobs.

A step is one operation on the backend or one step of the pipeline, so that a run that ends anywhere
is an execution that was stopped there. An error or the shutdown signal ends the execution; what was
in flight may still take effect (`failed`, `aborted`). Failed deletions of old index files and of
obsolete packs are only logged. Locks and trash files are no files of the model.
-/

set_option autoImplicit false

namespace Mapache

open Lib

/-- The settings of a repack: how blobs are merged into segments, and the bytes that one chunk may
have. -/
structure GcConfig where
  segments : SegmentLimits
  decodedBudget : Nat

namespace Plan

/-- The index in memory after the unused packs were deleted. -/
def cleanIndex (env : IndexEnv) (plan : Plan) (mi : MasterIndex) : MasterIndex :=
  if plan.unusedPacks = ∅ then mi else mi.cleanup env (some plan.unusedPacks)

/-- The entries that `repack` gathers: live blobs in packs that are to go. -/
def locatorsToRepack (plan : Plan) (mi : MasterIndex) : List (ID × BlobLocator) :=
  mi.entries.filter fun e => e.1 ∈ plan.referencedBlobs ∧ e.2.packId ∈ plan.packsToRepack

/-- The index after `repack` has gathered its locators. It returns early when there are none, and
then the entries in the packs that are to go stay. -/
def repackIndex (env : IndexEnv) (plan : Plan) (mi : MasterIndex) : MasterIndex :=
  if plan.locatorsToRepack mi = [] then mi else mi.cleanup env (some plan.packsToRepack)

end Plan

/-- The chunks of `repack`: `current` is the chunk at hand and `acc` its bytes. -/
def chunkLoop (budget : Nat) : List (ID × BlobLocator) → List (ID × BlobLocator) → Nat →
    List (List (ID × BlobLocator))
  | [], current, _ => if current = [] then [] else [current]
  | e :: es, current, acc =>
    if 0 < acc ∧ budget < acc + e.2.rawLength then
      current :: chunkLoop budget es [e] e.2.rawLength
    else chunkLoop budget es (current ++ [e]) (acc + e.2.rawLength)

/-- The locators in chunks that fit the budget. -/
def repackChunks (budget : Nat) (locators : List (ID × BlobLocator)) :
    List (List (ID × BlobLocator)) :=
  chunkLoop budget locators [] 0

/-- The types of the blobs of a chunk. -/
def blobTypes (chunk : List (ID × BlobLocator)) : Table ID BlobType :=
  chunk.foldl (fun t e => t.insert e.1 e.2.blobType) ∅

/-- The blobs of a chunk as they are saved again. -/
def chunkBlobs (chunk : List (ID × BlobLocator)) (loaded : Table ID Bytes) : List Blob :=
  (Table.toList loaded).map fun e => ⟨e.1, ((blobTypes chunk).lookup e.1).getD .data, e.2⟩

/-- A pipeline without a pack saver, in which `MasterIndex::persist` has collected what it writes.
-/
def Pipe.persisting {κ : Type} {n : Nat} (index : MasterIndex) : Pipe κ n :=
  { (Pipe.init index.finalizeAll : Pipe κ n) with
    tx := false
    saver := .finished true
    workers := fun _ => .exited
    flush := .persisting index.toPersist }

/-- Where the execution stands. -/
inductive GcPhase where
  /-- Removing expired locks and trash files. -/
  | tidying
  | deletingUnused (todo : Finset ID)
  /-- `repack`, with the chunks that are not loaded and the blobs that are not saved yet. -/
  | repacking (chunks : List (List (ID × BlobLocator))) (loaded : List Blob)
  /-- The pack saver is flushed, or only the index is persisted. -/
  | flushing
  | deletingIndices (todo : Finset ID)
  | deletingObsolete (todo : Finset ID)
  | finished
  /-- An error was returned before the index was touched. Deletions of unused packs may be in
  flight. -/
  | failed (todo : Finset ID)
  /-- An error was returned while the pack saver was running. Its threads and calls go on. -/
  | aborted (loaded : List Blob)

/-- The threads of the pack saver run. -/
def GcPhase.packing : GcPhase → Bool
  | .repacking _ _ | .flushing | .aborted _ => true
  | _ => false

/-- The state of a garbage collection. The pipeline is only started when there is something to
repack; before that it stands for the index in memory. -/
structure Gc (κ : Type) (n : Nat) where
  backend : Backend
  pipe : Pipe κ n
  phase : GcPhase

/-- What happens in a step of a garbage collection. -/
inductive GcEvent (κ : Type) where
  | command
  | delete (id : ID)
  /-- The deletion of an old index file was reported as failed. -/
  | indexFail (fid : ID)
  /-- The deletion of an obsolete pack was reported as failed. -/
  | obsoleteFail (p : ID)
  | pipe (l : PipeEvent κ)
  /-- An error or the shutdown signal ends the execution. -/
  | stop

/-- A backend operation is reported as failed, or the execution ends early. -/
def GcEvent.Fails {κ : Type} : GcEvent κ → Prop
  | .indexFail _ | .obsoleteFail _ | .stop => True
  | .pipe .writeFail => True
  | _ => False

/-- A deletion that was reported as failed may have happened all the same. -/
def FailedDelete (b deleted b' : Backend) : Prop := b' = b ∨ b' = deleted

/-- The call returned an error. -/
def CallOutcome.isErr : CallOutcome → Bool
  | .err => true
  | _ => false

namespace Gc

variable {κ : Type} {n : Nat}

/-- The execution at its start, on the index that the client has loaded. -/
def start (b : Backend) (mi : MasterIndex) : Gc κ n := ⟨b, .init mi, .tidying⟩

/-- A step of the execution of a plan. -/
inductive Step [DecidableEq κ] (env : Env) (config : GcConfig) (plan : Plan) :
    Gc κ n → GcEvent κ → Gc κ n → Prop where
  | tidy {s : Gc κ n} : s.phase = .tidying →
      Step env config plan s .command { s with phase := .deletingUnused plan.unusedPacks }
  | tidyFail {s : Gc κ n} : s.phase = .tidying →
      Step env config plan s .stop { s with phase := .failed ∅ }
  | deleteUnused {s : Gc κ n} {todo : Finset ID} {p : ID} : s.phase = .deletingUnused todo →
      p ∈ todo →
      Step env config plan s (.delete p)
        { s with backend := s.backend.deletePack p, phase := .deletingUnused (todo.erase p) }
  | deleteUnusedFail {s : Gc κ n} {todo : Finset ID} {p : ID} {b' : Backend} :
      s.phase = .deletingUnused todo → p ∈ todo →
      FailedDelete s.backend (s.backend.deletePack p) b' →
      Step env config plan s .stop { s with backend := b', phase := .failed (todo.erase p) }
  /-- A deletion that was in flight when another one failed. -/
  | deleteLate {s : Gc κ n} {todo : Finset ID} {p : ID} : s.phase = .failed todo → p ∈ todo →
      Step env config plan s (.delete p)
        { s with backend := s.backend.deletePack p, phase := .failed (todo.erase p) }
  /-- The checkpoint after the unused packs were deleted, or the pack saver cannot be started. -/
  | interrupt {s : Gc κ n} : s.phase = .deletingUnused ∅ →
      Step env config plan s .stop { s with phase := .failed ∅ }
  | repack {s : Gc κ n} : s.phase = .deletingUnused ∅ → plan.packsToRepack ≠ ∅ →
      Step env config plan s .command
        { s with
          pipe := .init (plan.repackIndex env.toIndexEnv
            (plan.cleanIndex env.toIndexEnv s.pipe.index))
          phase := .repacking (repackChunks config.decodedBudget
            (plan.locatorsToRepack (plan.cleanIndex env.toIndexEnv s.pipe.index))) [] }
  | cleanOnly {s : Gc κ n} : s.phase = .deletingUnused ∅ → plan.packsToRepack = ∅ →
      plan.unusedPacks ≠ ∅ →
      Step env config plan s .command
        { s with
          pipe := .persisting (plan.cleanIndex env.toIndexEnv s.pipe.index)
          phase := .flushing }
  | nothing {s : Gc κ n} : s.phase = .deletingUnused ∅ → plan.packsToRepack = ∅ →
      plan.unusedPacks = ∅ →
      Step env config plan s .command { s with phase := .finished }
  | load {s : Gc κ n} {chunks : List (List (ID × BlobLocator))} {loaded : List Blob}
      {chunk : List (ID × BlobLocator)} {result : Table ID Bytes} :
      s.phase = .repacking chunks loaded → chunk ∈ chunks →
      LoadsWithLocators env config.segments s.backend chunk result →
      Step env config plan s .command
        { s with phase := .repacking (chunks.erase chunk) (loaded ++ chunkBlobs chunk result) }
  /-- A chunk cannot be loaded, or the shutdown signal is seen after a chunk. -/
  | repackFail {s : Gc κ n} {chunks : List (List (ID × BlobLocator))} {loaded : List Blob} :
      s.phase = .repacking chunks loaded →
      Step env config plan s .stop { s with phase := .aborted loaded }
  | save {s : Gc κ n} {chunks : List (List (ID × BlobLocator))} {loaded : List Blob} {c : Blob}
      {k : κ} {p' : Pipe κ n} : s.phase = .repacking chunks loaded → c ∈ loaded →
      Pipe.CallStep env s.pipe (.call k c.blobType c.data (.withID c.id)) p' →
      Step env config plan s (.pipe (.call k c.blobType c.data (.withID c.id)))
        { s with pipe := p', phase := .repacking chunks (loaded.erase c) }
  /-- A task of the repack that starts after another one failed. -/
  | saveLate {s : Gc κ n} {loaded : List Blob} {c : Blob} {k : κ} {p' : Pipe κ n} :
      s.phase = .aborted loaded → c ∈ loaded →
      Pipe.CallStep env s.pipe (.call k c.blobType c.data (.withID c.id)) p' →
      Step env config plan s (.pipe (.call k c.blobType c.data (.withID c.id)))
        { s with pipe := p', phase := .aborted (loaded.erase c) }
  /-- A call goes on. One that returns an error ends the repack. -/
  | caller {s : Gc κ n} {chunks : List (List (ID × BlobLocator))} {loaded : List Blob} {k : κ}
      {p' : Pipe κ n} : s.phase = .repacking chunks loaded →
      Pipe.CallStep env s.pipe (.caller k) p' →
      Step env config plan s (.pipe (.caller k))
        { s with
          pipe := p'
          phase := if ((s.pipe.callers k).outcome (p'.callers k)).isErr then .aborted loaded
            else .repacking chunks loaded }
  | callerLate {s : Gc κ n} {loaded : List Blob} {k : κ} {p' : Pipe κ n} :
      s.phase = .aborted loaded → Pipe.CallStep env s.pipe (.caller k) p' →
      Step env config plan s (.pipe (.caller k)) { s with pipe := p' }
  | saver {s : Gc κ n} {p' : Pipe κ n} : s.phase.packing = true → Pipe.SaverStep env s.pipe p' →
      Step env config plan s (.pipe .saver) { s with pipe := p' }
  | worker {s : Gc κ n} {l : PipeEvent κ} {b' : Backend} {p' : Pipe κ n} :
      s.phase.packing = true → Pipe.WorkerStep env s.backend s.pipe l b' p' →
      Step env config plan s (.pipe l) { s with backend := b', pipe := p' }
  | repacked {s : Gc κ n} : s.phase = .repacking [] [] → (∀ k, s.pipe.callers k = .idle) →
      Step env config plan s .command { s with phase := .flushing }
  | flush {s : Gc κ n} {l : PipeEvent κ} {b' : Backend} {p' : Pipe κ n} : s.phase = .flushing →
      Pipe.FlushStep s.backend s.pipe l b' p' →
      Step env config plan s (.pipe l) { s with backend := b', pipe := p' }
  | flushed {s : Gc κ n} : s.phase = .flushing → s.pipe.flush = .finished true →
      Step env config plan s .command
        { s with phase := .deletingIndices (plan.indexIds \ s.pipe.index.ids) }
  | flushFail {s : Gc κ n} : s.phase = .flushing → s.pipe.flush = .finished false →
      Step env config plan s .stop { s with phase := .aborted [] }
  | deleteIndex {s : Gc κ n} {todo : Finset ID} {fid : ID} : s.phase = .deletingIndices todo →
      fid ∈ todo →
      Step env config plan s (.delete fid)
        { s with backend := s.backend.deleteIndex fid, phase := .deletingIndices (todo.erase fid) }
  | deleteIndexFail {s : Gc κ n} {todo : Finset ID} {fid : ID} {b' : Backend} :
      s.phase = .deletingIndices todo → fid ∈ todo →
      FailedDelete s.backend (s.backend.deleteIndex fid) b' →
      Step env config plan s (.indexFail fid)
        { s with backend := b', phase := .deletingIndices (todo.erase fid) }
  /-- Without obsolete packs there is nothing left to delete. -/
  | indicesDeleted {s : Gc κ n} : s.phase = .deletingIndices ∅ →
      Step env config plan s .command { s with phase := .deletingObsolete plan.packsToRepack }
  /-- An obsolete pack may be an unused one, which is gone: then nothing happens. -/
  | deleteObsolete {s : Gc κ n} {todo : Finset ID} {p : ID} : s.phase = .deletingObsolete todo →
      p ∈ todo →
      Step env config plan s (.delete p)
        { s with backend := s.backend.deletePack p, phase := .deletingObsolete (todo.erase p) }
  | deleteObsoleteFail {s : Gc κ n} {todo : Finset ID} {p : ID} {b' : Backend} :
      s.phase = .deletingObsolete todo → p ∈ todo →
      FailedDelete s.backend (s.backend.deletePack p) b' →
      Step env config plan s (.obsoleteFail p)
        { s with backend := b', phase := .deletingObsolete (todo.erase p) }
  | done {s : Gc κ n} : s.phase = .deletingObsolete ∅ →
      Step env config plan s .command { s with phase := .finished }

end Gc

/-! ## The chunks -/

/-- The chunks are the locators, cut into pieces. -/
theorem flatten_chunkLoop (budget : Nat) (es current : List (ID × BlobLocator)) (acc : Nat) :
    (chunkLoop budget es current acc).flatten = current ++ es := by
  induction es generalizing current acc with
  | nil =>
    simp only [chunkLoop]
    split
    · rename_i hnil
      simp [hnil]
    · simp
  | cons e es ih =>
    simp only [chunkLoop]
    split
    · rw [List.flatten_cons, ih]
      rfl
    · rw [ih]
      simp

theorem flatten_repackChunks (budget : Nat) (locators : List (ID × BlobLocator)) :
    (repackChunks budget locators).flatten = locators :=
  flatten_chunkLoop budget locators [] 0

/-- No blob of a chunk is saved as padding. -/
theorem blobType_ne_padding_chunkBlobs {chunk : List (ID × BlobLocator)} {loaded : Table ID Bytes}
    {c : Blob} (hchunk : ∀ e ∈ chunk, e.2.blobType ≠ .padding) (hc : c ∈ chunkBlobs chunk loaded) :
    c.blobType ≠ .padding := by
  have htypes : ∀ (es : List (ID × BlobLocator)) (t : Table ID BlobType) (id : ID) (ty : BlobType),
      (es.foldl (fun t e => t.insert e.1 e.2.blobType) t).lookup id = some ty →
        t.lookup id = some ty ∨ ∃ e ∈ es, e.2.blobType = ty := by
    intro es
    induction es with
    | nil => exact fun t id ty h => Or.inl h
    | cons e es ih =>
      intro t id ty h
      rcases ih _ id ty h with hold | ⟨e', he', hty⟩
      · rw [Table.lookup_insert_eq_ite] at hold
        split at hold
        · exact Or.inr ⟨e, List.mem_cons_self, Option.some.inj hold⟩
        · exact Or.inl hold
      · exact Or.inr ⟨e', List.mem_cons_of_mem _ he', hty⟩
  obtain ⟨⟨id, data⟩, -, rfl⟩ := List.mem_map.mp hc
  dsimp only
  cases hlook : (blobTypes chunk).lookup id with
  | none => decide
  | some ty =>
    rcases htypes chunk ∅ id ty hlook with hnone | ⟨e, he, rfl⟩
    · cases hnone
    · exact hchunk e he

end Mapache
