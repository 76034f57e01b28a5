import Mathlib.Logic.Function.Basic
import Mapache.Repository.Backend

/-!
# The pack pipeline

`Repository::encode_and_save_blob`, `PackSaver` and `Repository::flush_and_finalize_pack_saver` as
one step relation. The callers (indexed by `κ`) put requests into a queue; the saver thread fills
one packer for data and one for trees and hands full ones to `n` worker threads; a worker finalizes
a pack, uploads it, registers it with the index and gives the packer back to the pool; a flush
closes the queue, waits for the saver and writes what is left of the index. A step is one access to
shared state (a channel, a lock, the backend) with the local work around it.

The bounds of the channels are left out: a bounded channel only delays its sender, so every run of
the code is a run here. A packer carries no blob type through the channel to the workers, because
the code only uses it for storage hints and statistics.
-/

set_option autoImplicit false

namespace Mapache

open Lib

/-- A blob as a caller saves it. -/
structure Blob where
  id : ID
  blobType : BlobType
  data : Bytes
  deriving DecidableEq

/-- The blob of a call of `encode_and_save_blob`. -/
def Blob.ofCall (env : Env) (blobType : BlobType) (data : Bytes) (saveId : SaveID) : Blob where
  id := match saveId with
    | .calculateID => env.fromContent data
    | .withID id => id
  blobType := blobType
  data := data

/-- `PackSaverRequest::SaveBlob`. -/
structure Request where
  id : ID
  blobType : BlobType
  data : Bytes
  rawLength : Nat
  deriving DecidableEq

/-- Where a caller stands in `encode_and_save_blob`. -/
inductive CallPhase where
  | idle
  /-- `contains`: about to ask `pending_blobs`. -/
  | checking (c : Blob)
  /-- `contains`: about to ask the indices. -/
  | lookup (c : Blob)
  /-- About to encode and to clone the sender of the queue. -/
  | cloning (c : Blob)
  /-- Holding a sender, about to send. -/
  | sending (c : Blob) (encoded : Bytes)
  /-- `add_pending_blob`: about to ask `pending_blobs`. -/
  | noting (c : Blob)
  /-- `add_pending_blob`: about to ask the indices. -/
  | notingIndex (c : Blob)
  /-- `add_pending_blob`: about to insert. -/
  | inserting (c : Blob)
  /-- The call returned `Ok`. -/
  | returned (c : Blob)
  deriving DecidableEq

/-- The caller holds a sender of the queue. -/
def CallPhase.holdsTx : CallPhase → Bool
  | .sending _ _ | .noting _ | .notingIndex _ | .inserting _ => true
  | _ => false

/-- The lookups of a call: each decides where the call goes on. -/
def CallPhase.look (env : IndexEnv) (mi : MasterIndex) : CallPhase → CallPhase
  | .checking c => if c.id ∈ mi.pendingBlobs then .returned c else .lookup c
  | .lookup c => if mi.indexContains env c.id then .returned c else .cloning c
  | .noting c => if c.id ∈ mi.pendingBlobs then .returned c else .notingIndex c
  | .notingIndex c => if mi.anyIndexContains env c.id then .returned c else .inserting c
  | p => p

/-- The two packers of the saver. -/
inductive Slot where
  | data
  | tree
  deriving DecidableEq

/-- The packer for a blob of the given type. A padding blob has none. -/
def BlobType.slot : BlobType → Option Slot
  | .data => some .data
  | .tree => some .tree
  | .padding => none

/-- Where `run` goes on after a dispatch. -/
inductive SaverNext where
  | receive
  /-- The queue is closed, the data packer was flushed. -/
  | flushTree
  | join
  deriving DecidableEq

/-- Where the saver thread stands. -/
inductive SaverPhase where
  /-- In `PackSaver::new`. -/
  | starting
  | receiving
  /-- `dispatch_packer`, about to take an empty packer from the pool. -/
  | dispatching (t : Slot) (next : SaverNext)
  /-- `dispatch_packer`, about to send the full packer to the workers. -/
  | sending (p : Packer) (next : SaverNext)
  /-- The channel to the workers is closed, about to join them. -/
  | joining
  | finished (ok : Bool)
  deriving DecidableEq

/-- The phase after a dispatch. -/
def SaverNext.phase : SaverNext → SaverPhase
  | .receive => .receiving
  | .flushTree => .dispatching .tree .join
  | .join => .joining

/-- The saver thread has ended, and with it the receivers of the queue and of the pool. -/
def SaverPhase.ended : SaverPhase → Bool
  | .finished _ => true
  | _ => false

/-- The saver has dropped the channel to the workers. -/
def SaverPhase.closed : SaverPhase → Bool
  | .joining | .finished _ => true
  | _ => false

/-- The saver is in `dispatch_packer`. -/
def SaverPhase.isDispatching : SaverPhase → Bool
  | .dispatching _ _ | .sending _ _ => true
  | _ => false

/-- Where a worker thread stands. -/
inductive WorkerPhase where
  | waiting
  /-- It received a packer and has not yet looked at `first_err`. -/
  | got (p : Packer)
  /-- The packer was empty, it goes back to the pool. -/
  | emptied (p : Packer)
  | uploading (pack : FinalizedPack)
  /-- The pack is uploaded, `add_pack` is about to take its lock. -/
  | registering (pack : FinalizedPack)
  /-- `add_pack` is about to write a full index. -/
  | persisting (ix : Index)
  /-- The index is written, its status is about to be recorded. -/
  | marking (ix : Index) (fid : ID)
  /-- Done with the pack, about to give its packer back. -/
  | recycling (p : Packer)
  /-- About to record an error in `first_err`. -/
  | failing (p : Packer)
  /-- The error is recorded, the packer is about to go back. -/
  | returning (p : Packer)
  | exited

/-- Where a flush stands. -/
inductive FlushPhase where
  | idle
  /-- Waiting for the saver thread. -/
  | joining
  /-- `MasterIndex::persist` is about to write the first of these. -/
  | persisting (todo : List Index)
  | marking (ix : Index) (fid : ID) (todo : List Index)
  | finished (ok : Bool)

/-- The state of one client's pack pipeline. `saved` are the calls that returned `Ok`, in order. -/
structure Pipe (κ : Type) (n : Nat) where
  index : MasterIndex
  callers : κ → CallPhase
  /-- `pack_saver_tx` is there. -/
  tx : Bool
  queue : List Request
  saver : SaverPhase
  packers : Slot → Packer
  full : List Packer
  pool : List Packer
  workers : Fin n → WorkerPhase
  firstErr : Bool
  flush : FlushPhase
  saved : List Blob

/-- What happens in a step of a pipeline. -/
inductive PipeEvent (κ : Type) where
  | call (k : κ) (blobType : BlobType) (data : Bytes) (saveId : SaveID)
  | caller (k : κ)
  | saver
  | worker
  /-- The locked section of `add_pack`. -/
  | register (pack : FinalizedPack)
  | flush
  /-- A write that the backend reported as failed. -/
  | writeFail

namespace Pipe

variable {κ : Type} {n : Nat}

/-- The pipeline after `init_pack_saver`. -/
def init (index : MasterIndex) : Pipe κ n where
  index := index
  callers := fun _ => .idle
  tx := true
  queue := []
  saver := .starting
  packers := fun _ => .new
  full := []
  pool := List.replicate n .new
  workers := fun _ => .waiting
  firstErr := false
  flush := .idle
  saved := []

/-- A step of a caller. -/
inductive CallStep [DecidableEq κ] (env : Env) : Pipe κ n → PipeEvent κ → Pipe κ n → Prop where
  | call {s : Pipe κ n} {k : κ} (t : BlobType) (data : Bytes) (saveId : SaveID) :
      s.callers k = .idle → CallStep env s (.call k t data saveId)
        { s with callers := Function.update s.callers k (.checking (.ofCall env t data saveId)) }
  | look {s : Pipe κ n} {k : κ} : CallStep env s (.caller k)
      { s with callers := Function.update s.callers k ((s.callers k).look env.toIndexEnv s.index) }
  /-- `encode` fails, or the packer is stopped: the call returns an error. -/
  | reject {s : Pipe κ n} {k : κ} {c : Blob} : s.callers k = .cloning c →
      ((∃ nonce, env.storage.encode nonce c.data = none) ∨ s.tx = false) → CallStep env s
        (.caller k) { s with callers := Function.update s.callers k .idle }
  | clone {s : Pipe κ n} {k : κ} {c : Blob} (nonce : Nonce) {encoded : Bytes} :
      s.callers k = .cloning c → env.storage.encode nonce c.data = some encoded → s.tx = true →
      CallStep env s (.caller k)
        { s with callers := Function.update s.callers k (.sending c encoded) }
  | send {s : Pipe κ n} {k : κ} {c : Blob} {encoded : Bytes} :
      s.callers k = .sending c encoded → s.saver.ended = false → CallStep env s (.caller k)
        { s with
          callers := Function.update s.callers k (.noting c)
          queue := s.queue ++ [⟨c.id, c.blobType, encoded, c.data.length⟩] }
  /-- The channel is closed: the call returns an error. -/
  | sendFail {s : Pipe κ n} {k : κ} {c : Blob} {encoded : Bytes} :
      s.callers k = .sending c encoded → s.saver.ended = true →
      CallStep env s (.caller k) { s with callers := Function.update s.callers k .idle }
  | insert {s : Pipe κ n} {k : κ} {c : Blob} : s.callers k = .inserting c →
      CallStep env s (.caller k)
        { s with
          callers := Function.update s.callers k (.returned c)
          index := s.index.insertPending c.id }
  | ret {s : Pipe κ n} {k : κ} {c : Blob} : s.callers k = .returned c →
      CallStep env s (.caller k)
        { s with callers := Function.update s.callers k .idle, saved := s.saved ++ [c] }

/-- A step of the saver thread. -/
inductive SaverStep (env : Env) : Pipe κ n → Pipe κ n → Prop where
  | start {s : Pipe κ n} : s.saver = .starting → SaverStep env s { s with saver := .receiving }
  | startFail {s : Pipe κ n} : s.saver = .starting →
      SaverStep env s { s with saver := .finished false }
  | skip {s : Pipe κ n} {r : Request} {q : List Request} : s.saver = .receiving →
      s.queue = r :: q → r.blobType.slot = none → SaverStep env s { s with queue := q }
  | add {s : Pipe κ n} {r : Request} {q : List Request} {t : Slot} {p : Packer} :
      s.saver = .receiving → s.queue = r :: q → r.blobType.slot = some t →
      (s.packers t).addBlob r.id r.blobType r.data r.rawLength = some p →
      SaverStep env s
        { s with
          queue := q
          packers := Function.update s.packers t p
          saver := if env.maxPackerSize ≤ p.buffer.length then .dispatching t .receive
            else .receiving }
  | addFail {s : Pipe κ n} {r : Request} {q : List Request} {t : Slot} :
      s.saver = .receiving → s.queue = r :: q → r.blobType.slot = some t →
      (s.packers t).addBlob r.id r.blobType r.data r.rawLength = none →
      SaverStep env s { s with queue := q, saver := .finished false }
  /-- The queue is empty and its last sender is gone. -/
  | close {s : Pipe κ n} : s.saver = .receiving → s.queue = [] → s.tx = false →
      (∀ k, (s.callers k).holdsTx = false) →
      SaverStep env s { s with saver := .dispatching .data .flushTree }
  | dispatchEmpty {s : Pipe κ n} {t : Slot} {next : SaverNext} : s.saver = .dispatching t next →
      (s.packers t).buffer = [] → SaverStep env s { s with saver := next.phase }
  | take {s : Pipe κ n} {t : Slot} {next : SaverNext} {p : Packer} {ps : List Packer} :
      s.saver = .dispatching t next → (s.packers t).buffer ≠ [] → s.pool = p :: ps →
      SaverStep env s
        { s with
          pool := ps
          packers := Function.update s.packers t p
          saver := .sending (s.packers t) next }
  | send {s : Pipe κ n} {p : Packer} {next : SaverNext} : s.saver = .sending p next →
      SaverStep env s { s with full := s.full ++ [p], saver := next.phase }
  /-- All workers are gone, and with them the other ends of the channels. -/
  | disconnect {s : Pipe κ n} : s.saver.isDispatching = true → (∀ w, s.workers w = .exited) →
      SaverStep env s { s with saver := .finished false }
  | join {s : Pipe κ n} : s.saver = .joining → (∀ w, s.workers w = .exited) →
      SaverStep env s { s with saver := .finished (!s.firstErr) }

/-- A write that may have reached the backend although it was reported as failed. -/
def FailedWrite (b : Backend) (id : ID) (written b' : Backend) : Prop :=
  b' = b ∨ (b.Fresh id ∧ b' = written)

/-- A step of a worker thread. -/
inductive WorkerStep (env : Env) : Backend → Pipe κ n → PipeEvent κ → Backend → Pipe κ n → Prop where
  | recv {b : Backend} {s : Pipe κ n} {w : Fin n} {p : Packer} {ps : List Packer} :
      s.workers w = .waiting → s.full = p :: ps →
      WorkerStep env b s .worker b
        { s with full := ps, workers := Function.update s.workers w (.got p) }
  | closed {b : Backend} {s : Pipe κ n} {w : Fin n} : s.workers w = .waiting → s.full = [] →
      s.saver.closed = true →
      WorkerStep env b s .worker b { s with workers := Function.update s.workers w .exited }
  /-- Another worker failed: the packer is dropped. -/
  | abandon {b : Backend} {s : Pipe κ n} {w : Fin n} {p : Packer} : s.workers w = .got p →
      s.firstErr = true →
      WorkerStep env b s .worker b { s with workers := Function.update s.workers w .exited }
  | finalize {b : Backend} {s : Pipe κ n} {w : Fin n} {p : Packer} (nonce : Nonce)
      (rand : Nat → PackedBlobDescriptor) {pack : FinalizedPack} : s.workers w = .got p →
      s.firstErr = false →
      p.finalizeAndExtract env.storage env.fromContent nonce rand = some (some pack) →
      WorkerStep env b s .worker b
        { s with workers := Function.update s.workers w (.uploading pack) }
  | finalizeEmpty {b : Backend} {s : Pipe κ n} {w : Fin n} {p : Packer} (nonce : Nonce)
      (rand : Nat → PackedBlobDescriptor) : s.workers w = .got p → s.firstErr = false →
      p.finalizeAndExtract env.storage env.fromContent nonce rand = some none →
      WorkerStep env b s .worker b { s with workers := Function.update s.workers w (.emptied p) }
  /-- The footer cannot be encoded: the descriptors are already taken out of the packer. -/
  | finalizeFail {b : Backend} {s : Pipe κ n} {w : Fin n} {p : Packer} (nonce : Nonce)
      (rand : Nat → PackedBlobDescriptor) : s.workers w = .got p → s.firstErr = false →
      p.finalizeAndExtract env.storage env.fromContent nonce rand = none →
      WorkerStep env b s .worker b
        { s with workers := Function.update s.workers w (.failing { p with descriptors := [] }) }
  | giveEmptied {b : Backend} {s : Pipe κ n} {w : Fin n} {p : Packer} : s.workers w = .emptied p →
      WorkerStep env b s .worker b
        { s with
          pool := if s.saver.ended then s.pool else s.pool ++ [p]
          workers := Function.update s.workers w .waiting }
  | upload {b : Backend} {s : Pipe κ n} {w : Fin n} {pack : FinalizedPack} :
      s.workers w = .uploading pack → b.Fresh pack.id →
      WorkerStep env b s .worker (b.savePack pack.id pack.data)
        { s with workers := Function.update s.workers w (.registering pack) }
  | uploadFail {b b' : Backend} {s : Pipe κ n} {w : Fin n} {pack : FinalizedPack} :
      s.workers w = .uploading pack → FailedWrite b pack.id (b.savePack pack.id pack.data) b' →
      WorkerStep env b s .writeFail b'
        { s with workers := Function.update s.workers w (.failing .new) }
  | register {b : Backend} {s : Pipe κ n} {w : Fin n} {pack : FinalizedPack} (timedOut : Bool) :
      s.workers w = .registering pack →
      WorkerStep env b s (.register pack) b
        { s with
          index := (s.index.addPackLocked env.toIndexEnv pack.id pack.descriptors timedOut).1
          workers := Function.update s.workers w
            (match (s.index.addPackLocked env.toIndexEnv pack.id pack.descriptors timedOut).2 with
              | none => .recycling .new
              | some ix => .persisting ix) }
  | persist {b : Backend} {s : Pipe κ n} {w : Fin n} {ix : Index} (fid : ID) :
      s.workers w = .persisting ix → b.Fresh fid →
      WorkerStep env b s .worker (b.saveIndex fid ix.toFile)
        { s with workers := Function.update s.workers w (.marking ix fid) }
  | persistFail {b b' : Backend} {s : Pipe κ n} {w : Fin n} {ix : Index} {fid : ID} :
      s.workers w = .persisting ix → FailedWrite b fid (b.saveIndex fid ix.toFile) b' →
      WorkerStep env b s .writeFail b'
        { s with workers := Function.update s.workers w (.failing .new) }
  | mark {b : Backend} {s : Pipe κ n} {w : Fin n} {ix : Index} {fid : ID} :
      s.workers w = .marking ix fid →
      WorkerStep env b s .worker b
        { s with
          index := s.index.setPersisted ix.instanceId fid
          workers := Function.update s.workers w (.recycling .new) }
  | recycle {b : Backend} {s : Pipe κ n} {w : Fin n} {p : Packer} : s.workers w = .recycling p →
      s.saver.ended = false →
      WorkerStep env b s .worker b
        { s with pool := s.pool ++ [p], workers := Function.update s.workers w .waiting }
  | recycleClosed {b : Backend} {s : Pipe κ n} {w : Fin n} {p : Packer} :
      s.workers w = .recycling p → s.saver.ended = true →
      WorkerStep env b s .worker b { s with workers := Function.update s.workers w .exited }
  | fail {b : Backend} {s : Pipe κ n} {w : Fin n} {p : Packer} : s.workers w = .failing p →
      WorkerStep env b s .worker b
        { s with firstErr := true, workers := Function.update s.workers w (.returning p) }
  | giveBack {b : Backend} {s : Pipe κ n} {w : Fin n} {p : Packer} : s.workers w = .returning p →
      WorkerStep env b s .worker b
        { s with
          pool := if s.saver.ended then s.pool else s.pool ++ [p]
          workers := Function.update s.workers w .exited }

/-- A step of `flush_and_finalize_pack_saver`. -/
inductive FlushStep : Backend → Pipe κ n → PipeEvent κ → Backend → Pipe κ n → Prop where
  | take {b : Backend} {s : Pipe κ n} : s.flush = .idle →
      FlushStep b s .flush b { s with tx := false, flush := .joining }
  | joinFail {b : Backend} {s : Pipe κ n} : s.flush = .joining → s.saver = .finished false →
      FlushStep b s .flush b { s with flush := .finished false }
  /-- The first section of `persist` collects what is to be written. -/
  | joinOk {b : Backend} {s : Pipe κ n} : s.flush = .joining → s.saver = .finished true →
      FlushStep b s .flush b
        { s with index := s.index.finalizeAll, flush := .persisting s.index.toPersist }
  | persist {b : Backend} {s : Pipe κ n} {ix : Index} {todo : List Index} (fid : ID) :
      s.flush = .persisting (ix :: todo) → b.Fresh fid →
      FlushStep b s .flush (b.saveIndex fid ix.toFile) { s with flush := .marking ix fid todo }
  | persistFail {b b' : Backend} {s : Pipe κ n} {ix : Index} {todo : List Index} {fid : ID} :
      s.flush = .persisting (ix :: todo) → FailedWrite b fid (b.saveIndex fid ix.toFile) b' →
      FlushStep b s .writeFail b' { s with flush := .finished false }
  | mark {b : Backend} {s : Pipe κ n} {ix : Index} {todo : List Index} {fid : ID} :
      s.flush = .marking ix fid todo →
      FlushStep b s .flush b
        { s with index := s.index.setPersisted ix.instanceId fid, flush := .persisting todo }
  | done {b : Backend} {s : Pipe κ n} : s.flush = .persisting [] →
      FlushStep b s .flush b { s with flush := .finished true }

/-- A step of a pipeline with its backend. -/
inductive Step [DecidableEq κ] (env : Env) :
    Backend → Pipe κ n → PipeEvent κ → Backend → Pipe κ n → Prop where
  | call {b : Backend} {s s' : Pipe κ n} {l : PipeEvent κ} : CallStep env s l s' → Step env b s l b s'
  | saver {b : Backend} {s s' : Pipe κ n} : SaverStep env s s' → Step env b s .saver b s'
  | worker {b b' : Backend} {s s' : Pipe κ n} {l : PipeEvent κ} :
      WorkerStep env b s l b' s' → Step env b s l b' s'
  | flush {b b' : Backend} {s s' : Pipe κ n} {l : PipeEvent κ} :
      FlushStep b s l b' s' → Step env b s l b' s'

end Pipe

end Mapache
