import Mapache.Repository.PackSaverBounded

/-!
# The statistics of a pack saver

`RepoStats` and `PackSaver::update_stats`. `CountingPipe` is the pack pipeline with what the
statistics need beside it: the blob type that travels with a packer through the channel to the
workers, what a worker captures of a finalized pack, and the counters. Its steps are those of the
pipeline (`CountingPipe.Step.refines`).

A counter of the statistics and the packs that are in the index are kept in balance by the workers
that have registered a pack and not yet counted it (`Balanced.step`), so a successful flush returns
the sum over all packs (`balance_of_flush`). What a worker captures as the number of blobs is the
number of descriptors behind `generate_footer`, which has padded them (`blobs_of_flush`).
-/

set_option autoImplicit false

namespace Mapache

open Lib

/-! ## Counters -/

/-- `SizePair`. -/
structure SizePair where
  raw : Nat
  encoded : Nat

/-- `SizePair::zero`. -/
def SizePair.zero : SizePair := ⟨0, 0⟩

/-- `RepoStats`. -/
structure RepoStats where
  rawBytes : Nat
  encodedBytes : Nat
  dataBlobs : Nat
  metaRawBytes : Nat
  metaEncodedBytes : Nat
  metaBlobs : Nat
  indexRawBytes : Nat
  indexMetaBytes : Nat

/-- `RepoStatsSnapshot`. -/
structure RepoStatsSnapshot where
  data : SizePair
  metadata : SizePair
  total : SizePair
  blobs : Nat
  metaBlobs : Nat
  index : SizePair

namespace RepoStats

/-- `RepoStats::reset`. -/
def reset : RepoStats := ⟨0, 0, 0, 0, 0, 0, 0, 0⟩

/-- `RepoStats::snapshot`. -/
def snapshot (s : RepoStats) : RepoStatsSnapshot where
  data := ⟨s.rawBytes, s.encodedBytes⟩
  metadata := ⟨s.metaRawBytes, s.metaEncodedBytes⟩
  total := ⟨s.rawBytes + s.metaRawBytes, s.encodedBytes + s.metaEncodedBytes⟩
  blobs := s.dataBlobs
  metaBlobs := s.metaBlobs
  index := ⟨s.indexRawBytes, s.indexMetaBytes⟩

/-- The size of an index that was written. -/
def addIndex (s : RepoStats) (index : SizePair) : RepoStats :=
  { s with
    indexRawBytes := s.indexRawBytes + index.raw
    indexMetaBytes := s.indexMetaBytes + index.encoded }

end RepoStats

/-! ## Packs -/

/-- `PackFinalizationResult`. -/
structure PackFinalizationResult extends FinalizedPack where
  rawSize : Nat
  metaSize : Nat
  encodedSize : Nat

/-- `Packer::finalize_and_extract` with all that it returns. -/
def Packer.finalizeWithSizes (storage : SecureStorage) (fromContent : Bytes → ID) (nonce : Nonce)
    (rand : Nat → PackedBlobDescriptor) (p : Packer) : Option (Option PackFinalizationResult) :=
  if p.buffer = [] then some none
  else
    (storage.encode nonce (footerBytes (pad rand p.descriptors))).map fun footer =>
      let data := p.buffer ++ footer ++ littleEndian 4 footer.length
      some
        { id := fromContent data
          data
          descriptors := pad rand p.descriptors
          rawSize := p.rawSize
          metaSize := footer.length + 4
          encodedSize := data.length }

/-- What a worker captures of a pack before it uploads it: the type that came with the packer, then
`stats_raw`, `stats_enc`, `stats_meta` and `stats_blobs`. -/
structure CapturedStats where
  blobType : BlobType
  statsRaw : Nat
  statsEnc : Nat
  statsMeta : Nat
  statsBlobs : Nat

/-- The worker's `let stats_… = …`. -/
def PackFinalizationResult.stats (r : PackFinalizationResult) (blobType : BlobType) :
    CapturedStats :=
  ⟨blobType, r.rawSize, r.encodedSize, r.metaSize, r.descriptors.length⟩

/-- `PackSaver::update_stats`. -/
def RepoStats.updateStats (s : RepoStats) (j : CapturedStats) (index : SizePair) : RepoStats :=
  RepoStats.addIndex
    (match j.blobType with
      | .data =>
        { s with
          rawBytes := s.rawBytes + j.statsRaw
          encodedBytes := s.encodedBytes + (j.statsEnc - j.statsMeta)
          metaRawBytes := s.metaRawBytes + j.statsMeta
          metaEncodedBytes := s.metaEncodedBytes + j.statsMeta
          dataBlobs := s.dataBlobs + j.statsBlobs }
      | .tree =>
        { s with
          metaRawBytes := s.metaRawBytes + (j.statsRaw + j.statsMeta)
          metaEncodedBytes := s.metaEncodedBytes + j.statsEnc
          metaBlobs := s.metaBlobs + j.statsBlobs }
      | .padding => s)
    index

/-- The sizes come with the pack that the pipeline sees. -/
theorem Packer.finalizeWithSizes_toFinalizedPack {storage : SecureStorage}
    {fromContent : Bytes → ID} {nonce : Nonce} {rand : Nat → PackedBlobDescriptor} {p : Packer}
    {r : PackFinalizationResult}
    (h : p.finalizeWithSizes storage fromContent nonce rand = some (some r)) :
    p.finalizeAndExtract storage fromContent nonce rand = some (some r.toFinalizedPack) ∧
      r.rawSize = p.rawSize := by
  unfold finalizeWithSizes at h
  unfold finalizeAndExtract
  split at h
  · cases h
  · rename_i hne
    rw [if_neg hne]
    obtain ⟨footer, hfooter, hr⟩ := Option.map_eq_some_iff.mp h
    cases hr
    rw [hfooter]
    exact ⟨rfl, rfl⟩

theorem Packer.exists_finalizeWithSizes {storage : SecureStorage} {fromContent : Bytes → ID}
    {nonce : Nonce} {rand : Nat → PackedBlobDescriptor} {p : Packer} {pack : FinalizedPack}
    (h : p.finalizeAndExtract storage fromContent nonce rand = some (some pack)) :
    ∃ r, p.finalizeWithSizes storage fromContent nonce rand = some (some r) ∧
      r.toFinalizedPack = pack := by
  obtain ⟨hne, footer, hfooter, rfl⟩ := finalizeAndExtract_some h
  rw [finalizeWithSizes, if_neg hne, hfooter]
  exact ⟨_, rfl, rfl⟩

/-- The type of the blobs in a packer of the saver. -/
def Slot.blobType : Slot → BlobType
  | .data => .data
  | .tree => .tree

theorem BlobType.eq_of_slot {t : BlobType} {x : Slot} (h : t.slot = some x) : t = x.blobType := by
  cases t <;> cases h <;> rfl

/-! ## The pipeline with its counters -/

/-- A worker that is about to leave `add_pack`, which may be the end of the upload. -/
def WorkerPhase.leavesAddPack : WorkerPhase → Bool
  | .registering _ | .marking _ _ => true
  | _ => false

/-- A worker whose pack is in the index and not yet in the statistics. -/
def WorkerPhase.owes : WorkerPhase → Bool
  | .persisting _ | .marking _ _ => true
  | _ => false

/-- The step moves no packer between the saver and the workers, finalizes no pack, does not end an
`add_pack` and does not end the flush. -/
structure Pipe.Uncounted {κ : Type} {n : Nat} (s p : Pipe κ n) : Prop where
  full : p.full = s.full
  sending : ∀ q next, p.saver = .sending q next → s.saver = .sending q next
  workers : ∀ w, p.workers w = s.workers w ∨
    ((s.workers w).leavesAddPack = false ∧ ∀ pack, p.workers w ≠ .uploading pack)
  flush : p.flush = .finished true → s.flush = .finished true

/-- The pipeline with its statistics. `sendingType` is the type beside the packer in the hands of
the saver, `fullTypes` are the types beside the packers in the channel; `packs` are the packs that
were added to the index, in order. -/
structure CountingPipe (κ : Type) (n : Nat) where
  backend : Backend
  pipe : Pipe κ n
  sendingType : BlobType
  fullTypes : List BlobType
  types : Fin n → BlobType
  jobs : Fin n → CapturedStats
  stats : RepoStats
  packs : List FinalizedPack

namespace CountingPipe

variable {κ : Type} {n : Nat}

/-- After `reset_stats` and `init_pack_saver`. -/
def start (b : Backend) (index : MasterIndex) : CountingPipe κ n where
  backend := b
  pipe := .init index
  sendingType := .data
  fullTypes := []
  types := fun _ => .data
  jobs := fun _ => ⟨.data, 0, 0, 0, 0⟩
  stats := .reset
  packs := []

/-- A step of the pipeline with what it does to the statistics. -/
inductive Step [DecidableEq κ] (env : Env) (s : CountingPipe κ n) :
    PipeEvent κ → CountingPipe κ n → Prop where
  | other {l : PipeEvent κ} {b : Backend} {p : Pipe κ n} :
      Pipe.Step env s.backend s.pipe l b p → s.pipe.Uncounted p →
      Step env s l { s with backend := b, pipe := p }
  /-- `dispatch_packer` takes an empty packer for the full one. -/
  | take {t : Slot} {next : SaverNext} {p : Packer} {ps : List Packer} :
      s.pipe.saver = .dispatching t next → (s.pipe.packers t).buffer ≠ [] → s.pipe.pool = p :: ps →
      Step env s .saver
        { s with
          sendingType := t.blobType
          pipe := { s.pipe with
            pool := ps
            packers := Function.update s.pipe.packers t p
            saver := .sending (s.pipe.packers t) next } }
  /-- `full_packer_tx.send((new_packer, blob_type))`. -/
  | send {p : Packer} {next : SaverNext} : s.pipe.saver = .sending p next →
      Step env s .saver
        { s with
          fullTypes := s.fullTypes ++ [s.sendingType]
          pipe := { s.pipe with full := s.pipe.full ++ [p], saver := next.phase } }
  | recv {w : Fin n} {p : Packer} {ps : List Packer} {t : BlobType} {ts : List BlobType} :
      s.pipe.workers w = .waiting → s.pipe.full = p :: ps → s.fullTypes = t :: ts →
      Step env s .worker
        { s with
          fullTypes := ts
          types := Function.update s.types w t
          pipe := { s.pipe with
            full := ps, workers := Function.update s.pipe.workers w (.got p) } }
  | finalize {w : Fin n} {p : Packer} (nonce : Nonce) (rand : Nat → PackedBlobDescriptor)
      {r : PackFinalizationResult} : s.pipe.workers w = .got p → s.pipe.firstErr = false →
      p.finalizeWithSizes env.storage env.fromContent nonce rand = some (some r) →
      Step env s .worker
        { s with
          jobs := Function.update s.jobs w (r.stats (s.types w))
          pipe := { s.pipe with
            workers := Function.update s.pipe.workers w (.uploading r.toFinalizedPack) } }
  /-- `add_pack` registers the pack and has no index to write: `update_stats` follows. -/
  | register {w : Fin n} {pack : FinalizedPack} (timedOut : Bool) :
      s.pipe.workers w = .registering pack →
      (s.pipe.index.addPackLocked env.toIndexEnv pack.id pack.descriptors timedOut).2 = none →
      Step env s (.register pack)
        { s with
          stats := s.stats.updateStats (s.jobs w) .zero
          packs := s.packs ++ [pack]
          pipe := { s.pipe with
            index :=
              (s.pipe.index.addPackLocked env.toIndexEnv pack.id pack.descriptors timedOut).1
            workers := Function.update s.pipe.workers w (.recycling .new) } }
  /-- `add_pack` registers the pack and goes on to write a full index. -/
  | registerFull {w : Fin n} {pack : FinalizedPack} {ix : Index} (timedOut : Bool) :
      s.pipe.workers w = .registering pack →
      (s.pipe.index.addPackLocked env.toIndexEnv pack.id pack.descriptors timedOut).2 = some ix →
      Step env s (.register pack)
        { s with
          packs := s.packs ++ [pack]
          pipe := { s.pipe with
            index :=
              (s.pipe.index.addPackLocked env.toIndexEnv pack.id pack.descriptors timedOut).1
            workers := Function.update s.pipe.workers w (.persisting ix) } }
  /-- The index is written and recorded: `update_stats` follows with the size of its file. -/
  | mark {w : Fin n} {ix : Index} {fid : ID} (size : SizePair) :
      s.pipe.workers w = .marking ix fid →
      Step env s .worker
        { s with
          stats := s.stats.updateStats (s.jobs w) size
          pipe := { s.pipe with
            index := s.pipe.index.setPersisted ix.instanceId fid
            workers := Function.update s.pipe.workers w (.recycling .new) } }
  /-- The flush has written what was left of the index and adds its size. -/
  | done (size : SizePair) : s.pipe.flush = .persisting [] →
      Step env s .flush
        { s with
          stats := s.stats.addIndex size
          pipe := { s.pipe with flush := .finished true } }

variable [DecidableEq κ] {env : Env} {s s' : CountingPipe κ n}

/-- The steps are those of the pipeline. -/
theorem Step.refines {l : PipeEvent κ} (h : Step env s l s') :
    Pipe.Step env s.backend s.pipe l s'.backend s'.pipe := by
  cases h with
  | other hstep hquiet => exact hstep
  | take hs hne hpool => exact .saver (.take hs hne hpool)
  | send hs => exact .saver (.send hs)
  | recv hw hfull htypes => exact .worker (.recv hw hfull)
  | finalize nonce rand hw herr hr =>
    exact .worker (.finalize nonce rand hw herr (Packer.finalizeWithSizes_toFinalizedPack hr).1)
  | register timedOut hw hnone =>
    have hstep : Pipe.WorkerStep env s.backend s.pipe _ s.backend _ := .register timedOut hw
    rw [hnone] at hstep
    exact .worker hstep
  | registerFull timedOut hw hsome =>
    have hstep : Pipe.WorkerStep env s.backend s.pipe _ s.backend _ := .register timedOut hw
    rw [hsome] at hstep
    exact .worker hstep
  | mark size hw => exact .worker (.mark hw)
  | done size hf => exact .flush (.done hf)

end CountingPipe

/-! ## What a pack holds -/

/-- The blobs of a type in a pack. -/
def FinalizedPack.numBlobs (pack : FinalizedPack) (t : BlobType) : Nat :=
  pack.descriptors.countP fun d => d.blobType = t

/-- The raw lengths of the data blobs of a pack. -/
def FinalizedPack.rawBytes (pack : FinalizedPack) : Nat :=
  ((pack.descriptors.filter fun d => d.blobType = .data).map PackedBlobDescriptor.rawLength).sum

/-- The blobs of a type with the padding that so many blobs get. -/
def FinalizedPack.paddedBlobs (pack : FinalizedPack) (t : BlobType) : Nat :=
  pack.numBlobs t + Packer.numPadding (pack.numBlobs t)

/-- The packer holds blobs of one type and knows their raw size. -/
structure Packer.Holds (p : Packer) (t : BlobType) : Prop where
  types : ∀ d ∈ p.descriptors, d.blobType = t
  rawSize : p.rawSize = (p.descriptors.map PackedBlobDescriptor.rawLength).sum

/-- What a worker captured is true of its pack. -/
def CapturedStats.Describes (j : CapturedStats) (pack : FinalizedPack) : Prop :=
  ∃ rand ds, pack.descriptors = Packer.pad rand ds ∧ (∀ d ∈ ds, d.blobType = j.blobType) ∧
    j.statsRaw = (ds.map PackedBlobDescriptor.rawLength).sum ∧
    j.statsBlobs = pack.descriptors.length

theorem Packer.Holds.new (t : BlobType) : Packer.new.Holds t := ⟨fun _ hd => (by cases hd), rfl⟩

theorem Packer.Holds.addBlob {p p' : Packer} {id : ID} {t : BlobType} {enc : Bytes} {raw : Nat}
    (hp : p.Holds t) (h : p.addBlob id t enc raw = some p') : p'.Holds t := by
  unfold Packer.addBlob at h
  split at h
  · cases h
    refine ⟨?_, ?_⟩
    · intro d hd
      rcases List.mem_append.mp hd with hold | hnew
      · exact hp.types d hold
      · rw [List.mem_singleton.mp hnew]
    · simp only [List.map_append, List.map_cons, List.map_nil, List.sum_append, List.sum_singleton,
        hp.rawSize]
  · cases h

/-- A worker captures what is true of the pack it finalizes. -/
theorem CapturedStats.describes_stats {p : Packer} {storage : SecureStorage}
    {fromContent : Bytes → ID}
    {nonce : Nonce} {rand : Nat → PackedBlobDescriptor} {r : PackFinalizationResult} {t : BlobType}
    (hp : p.Holds t) (h : p.finalizeWithSizes storage fromContent nonce rand = some (some r)) :
    (r.stats t).Describes r.toFinalizedPack := by
  obtain ⟨hpack, hraw⟩ := Packer.finalizeWithSizes_toFinalizedPack h
  exact ⟨rand, p.descriptors, Packer.descriptors_finalize hpack, hp.types,
    hraw.trans hp.rawSize, rfl⟩

section Padding

variable {rand : Nat → PackedBlobDescriptor} {ds : List PackedBlobDescriptor} {t : BlobType}

theorem Packer.length_pad :
    (Packer.pad rand ds).length = ds.length + Packer.numPadding ds.length := by
  rw [Packer.pad, List.length_append, List.length_map, List.length_range]

/-- Padding has a type of its own. -/
theorem Packer.filter_pad (ht : t ≠ .padding) :
    (Packer.pad rand ds).filter (fun d => d.blobType = t) = ds.filter fun d => d.blobType = t := by
  rw [Packer.pad, List.filter_append]
  apply List.append_right_eq_self.mpr
  rw [List.filter_eq_nil_iff]
  intro d hd
  obtain ⟨i, _, rfl⟩ := List.mem_map.mp hd
  simpa using ht.symm

theorem Packer.numPadding_eq_zero_iff {k : Nat} :
    Packer.numPadding k = 0 ↔ footerBlobMultiple ∣ k := by
  rw [Nat.dvd_iff_mod_eq_zero]
  unfold Packer.numPadding
  split
  · rename_i hk
    simp [hk]
  · rename_i hk
    have hlt : k % footerBlobMultiple < footerBlobMultiple := Nat.mod_lt _ (by decide)
    constructor
    · intro h
      omega
    · intro h
      exact absurd h hk

end Padding

namespace CapturedStats

variable {j : CapturedStats} {pack : FinalizedPack} {t : BlobType}

/-- The blobs of the type of the packer are counted with their padding. -/
theorem Describes.statsBlobs (h : j.Describes pack) (ht : t ≠ .padding) :
    (if j.blobType = t then j.statsBlobs else 0) = pack.paddedBlobs t := by
  obtain ⟨rand, ds, hds, htypes, -, hblobs⟩ := h
  have hcount : pack.numBlobs t = (ds.filter fun d => d.blobType = t).length := by
    rw [FinalizedPack.numBlobs, List.countP_eq_length_filter, hds, Packer.filter_pad ht]
  rw [FinalizedPack.paddedBlobs, hcount]
  split
  · rename_i heq
    have hall : (ds.filter fun d => d.blobType = t) = ds := by
      apply List.filter_eq_self.mpr
      intro d hd
      simp [htypes d hd, heq]
    rw [hall, hblobs, hds, Packer.length_pad]
  · rename_i hne
    have hnone : (ds.filter fun d => d.blobType = t) = [] := by
      apply List.filter_eq_nil_iff.mpr
      intro d hd
      simp [htypes d hd, hne]
    rw [hnone]
    rfl

/-- The raw size is that of the data blobs, and nothing for trees. -/
theorem Describes.statsRaw (h : j.Describes pack) :
    (if j.blobType = .data then j.statsRaw else 0) = pack.rawBytes := by
  obtain ⟨rand, ds, hds, htypes, hraw, -⟩ := h
  rw [FinalizedPack.rawBytes, hds, Packer.filter_pad (by decide)]
  split
  · rename_i heq
    have hall : (ds.filter fun d => d.blobType = .data) = ds := by
      apply List.filter_eq_self.mpr
      intro d hd
      simp [htypes d hd, heq]
    rw [hall, hraw]
  · rename_i hne
    have hnone : (ds.filter fun d => d.blobType = .data) = [] := by
      apply List.filter_eq_nil_iff.mpr
      intro d hd
      simp [htypes d hd, hne]
    rw [hnone]
    rfl

end CapturedStats

/-- A counter of the statistics: what it adds for a pack is a function of the pack. -/
structure Counter where
  stat : RepoStats → Nat
  ofJob : CapturedStats → Nat
  ofPack : FinalizedPack → Nat
  reset : stat .reset = 0
  update : ∀ s j size, stat (s.updateStats j size) = stat s + ofJob j
  addIndex : ∀ s size, stat (s.addIndex size) = stat s
  agrees : ∀ {j pack}, j.Describes pack → ofJob j = ofPack pack

namespace Counter

/-- `data_blobs`. -/
def dataBlobs : Counter where
  stat := RepoStats.dataBlobs
  ofJob := fun j => if j.blobType = .data then j.statsBlobs else 0
  ofPack := fun pack => pack.paddedBlobs .data
  reset := rfl
  update := by
    intro s j size
    unfold RepoStats.updateStats RepoStats.addIndex
    cases j.blobType <;> rfl
  addIndex := fun _ _ => rfl
  agrees := fun h => h.statsBlobs (by decide)

/-- `meta_blobs`. -/
def metaBlobs : Counter where
  stat := RepoStats.metaBlobs
  ofJob := fun j => if j.blobType = .tree then j.statsBlobs else 0
  ofPack := fun pack => pack.paddedBlobs .tree
  reset := rfl
  update := by
    intro s j size
    unfold RepoStats.updateStats RepoStats.addIndex
    cases j.blobType <;> rfl
  addIndex := fun _ _ => rfl
  agrees := fun h => h.statsBlobs (by decide)

/-- `raw_bytes`. -/
def rawBytes : Counter where
  stat := RepoStats.rawBytes
  ofJob := fun j => if j.blobType = .data then j.statsRaw else 0
  ofPack := FinalizedPack.rawBytes
  reset := rfl
  update := by
    intro s j size
    unfold RepoStats.updateStats RepoStats.addIndex
    cases j.blobType <;> rfl
  addIndex := fun _ _ => rfl
  agrees := fun h => h.statsRaw

end Counter

/-! ## The balance -/

/-- What the pipeline knows of the packer or the pack in the hands of a worker. Without an error no
worker gets an empty packer, and none returns one after a failure. -/
def WorkerPhase.Fine (t : BlobType) (j : CapturedStats) : WorkerPhase → Prop
  | .got p => p.Holds t ∧ p.buffer ≠ []
  | .uploading pack | .registering pack => j.Describes pack
  | .recycling p => p = .new
  | .emptied _ | .returning _ => False
  | _ => True

/-- What a worker has still to add to a counter. -/
def Counter.owed (c : Counter) (phase : WorkerPhase) (j : CapturedStats) : Nat :=
  if phase.owes then c.ofJob j else 0

namespace CountingPipe

variable {κ : Type} {n : Nat}

/-- The counter and the debts of the workers are what the packs in the index amount to. -/
structure Balanced (c : Counter) (s : CountingPipe κ n) : Prop where
  slots : ∀ x, (s.pipe.packers x).Holds x.blobType
  pool : ∀ p ∈ s.pipe.pool, p = .new
  sending : ∀ p next, s.pipe.saver = .sending p next → p.Holds s.sendingType ∧ p.buffer ≠ []
  full : List.Forall₂ (fun t p => Packer.Holds p t ∧ p.buffer ≠ []) s.fullTypes s.pipe.full
  workers : ∀ w, (s.pipe.workers w).Fine (s.types w) (s.jobs w)
  balance : c.stat s.stats + ∑ w, c.owed (s.pipe.workers w) (s.jobs w) = (s.packs.map c.ofPack).sum

theorem Balanced.start (c : Counter) (b : Backend) (index : MasterIndex) :
    (CountingPipe.start b index : CountingPipe κ n).Balanced c where
  slots := fun _ => .new _
  pool := fun _ hp => List.eq_of_mem_replicate hp
  sending := fun _ _ hp => (by cases hp)
  full := .nil
  workers := fun _ => trivial
  balance := by
    have hnone :
        ∑ w : Fin n, c.owed .waiting ((CountingPipe.start b index : CountingPipe κ n).jobs w) =
        0 := Finset.sum_const_zero
    exact (congrArg₂ (· + ·) c.reset hnone)

variable {c : Counter} {env : Env} {s s' : CountingPipe κ n}

/-- Only one worker moves. -/
theorem fine_update (h : ∀ w, (s.pipe.workers w).Fine (s.types w) (s.jobs w)) {w : Fin n}
    {phase : WorkerPhase} {types : Fin n → BlobType} {jobs : Fin n → CapturedStats}
    (htypes : ∀ i, i ≠ w → types i = s.types i) (hjobs : ∀ i, i ≠ w → jobs i = s.jobs i)
    (hphase : phase.Fine (types w) (jobs w)) (i : Fin n) :
    (Function.update s.pipe.workers w phase i).Fine (types i) (jobs i) := by
  by_cases heq : i = w
  · subst heq
    rw [Function.update_self]
    exact hphase
  · rw [Function.update_of_ne heq, htypes i heq, hjobs i heq]
    exact h i

/-- The debts change by those of the worker that moves. -/
theorem sum_owed_update (c : Counter) (s : CountingPipe κ n) (w : Fin n) (phase : WorkerPhase)
    (jobs : Fin n → CapturedStats) (hjobs : ∀ i, i ≠ w → jobs i = s.jobs i) :
    ∑ i, c.owed (Function.update s.pipe.workers w phase i) (jobs i) +
        c.owed (s.pipe.workers w) (s.jobs w) =
      ∑ i, c.owed (s.pipe.workers i) (s.jobs i) + c.owed phase (jobs w) := by
  have heq : (fun i => c.owed (Function.update s.pipe.workers w phase i) (jobs i)) =
      Function.update (fun i => c.owed (s.pipe.workers i) (s.jobs i)) w
        (c.owed phase (jobs w)) := by
    funext i
    by_cases hi : i = w
    · subst hi
      rw [Function.update_self, Function.update_self]
    · rw [Function.update_of_ne hi, Function.update_of_ne hi, hjobs i hi]
  rw [heq]
  exact BoundedPipe.sum_update id (fun i => c.owed (s.pipe.workers i) (s.jobs i)) w _

/-- A worker that moves on without a debt leaves the sum of the debts as it is. -/
theorem sum_owed_move (c : Counter) {w : Fin n} {phase : WorkerPhase}
    (h : phase.owes = (s.pipe.workers w).owes) :
    ∑ i, c.owed (Function.update s.pipe.workers w phase i) (s.jobs i) =
      ∑ i, c.owed (s.pipe.workers i) (s.jobs i) := by
  have hsum := sum_owed_update c s w phase s.jobs fun _ _ => rfl
  have hsame : c.owed phase (s.jobs w) = c.owed (s.pipe.workers w) (s.jobs w) := by
    unfold Counter.owed
    rw [h]
  omega

theorem phase_ne_sending (next : SaverNext) (p : Packer) (next' : SaverNext) :
    next.phase ≠ .sending p next' := by
  cases next <;> exact fun hp => by cases hp

/-- The saver fills packers and leaves what it has dispatched. -/
theorem Balanced.saverStep (h : s.Balanced c) {p : Pipe κ n} (hstep : Pipe.SaverStep env s.pipe p)
    (hquiet : s.pipe.Uncounted p) : { s with pipe := p }.Balanced c := by
  cases hstep with
  | start hs | startFail hs | addFail hs | close hs | disconnect hs | join hs =>
    exact { h with sending := fun q next hq => (by cases hq) }
  | skip hs hq hr => exact { h with }
  | @add r q x p hs hq hr hadd =>
    refine { h with slots := ?_, sending := ?_ }
    · intro x'
      by_cases heq : x' = x
      · subst heq
        have hholds := h.slots x'
        rw [← BlobType.eq_of_slot hr] at hholds ⊢
        dsimp only
        rw [Function.update_self]
        exact hholds.addBlob hadd
      · dsimp only
        rw [Function.update_of_ne heq]
        exact h.slots x'
    · intro q next hsend
      dsimp only at hsend
      split at hsend <;> cases hsend
  | dispatchEmpty hs hempty =>
    exact { h with sending := fun q next hq => absurd hq (phase_ne_sending _ q next) }
  -- the packers that are taken and sent are counted steps of their own
  | take hs hne hpool =>
    have hsend := hquiet.sending _ _ rfl
    rw [hs] at hsend
    cases hsend
  | send hs =>
    have hlen := congrArg List.length hquiet.full
    simp at hlen

/-- What a worker has in its phase. -/
theorem Balanced.fine (h : s.Balanced c) {w : Fin n} {phase : WorkerPhase}
    (hw : s.pipe.workers w = phase) : phase.Fine (s.types w) (s.jobs w) := by
  rw [← hw]
  exact h.workers w

/-- A worker goes on to a phase that is fine and has the same debt. -/
theorem Balanced.move (h : s.Balanced c) {w : Fin n} (phase : WorkerPhase)
    (hphase : phase.Fine (s.types w) (s.jobs w))
    (howes : phase.owes = (s.pipe.workers w).owes) :
    (∀ i, (Function.update s.pipe.workers w phase i).Fine (s.types i) (s.jobs i)) ∧
      c.stat s.stats + ∑ i, c.owed (Function.update s.pipe.workers w phase i) (s.jobs i) =
        (s.packs.map c.ofPack).sum := by
  refine ⟨fine_update h.workers (fun _ _ => rfl) (fun _ _ => rfl) hphase, ?_⟩
  rw [sum_owed_move c howes]
  exact h.balance

/-- A worker outside the statistics neither pays nor borrows, unless the flush will fail. -/
theorem Balanced.workerStep (h : s.Balanced c) {l : PipeEvent κ} {b : Backend} {p : Pipe κ n}
    (hstep : Pipe.WorkerStep env s.backend s.pipe l b p) (hquiet : s.pipe.Uncounted p)
    (hbefore : ¬ s.pipe.Lost) (hafter : ¬ p.Lost) :
    { s with backend := b, pipe := p }.Balanced c := by
  have hfailing : ∀ {w : Fin n} {q : Packer},
      p.workers = Function.update s.pipe.workers w (.failing q) → False := by
    intro w q hw
    refine hafter (Or.inr (Or.inr ⟨w, q, ?_⟩))
    rw [hw, Function.update_self]
  -- a step that is counted elsewhere
  have hcounted : ∀ {w : Fin n}, (s.pipe.workers w).leavesAddPack = true →
      p.workers w ≠ s.pipe.workers w → False := by
    intro w hleaves hne
    rcases hquiet.workers w with hsame | ⟨hstay, -⟩
    · exact hne hsame
    · rw [hleaves] at hstay
      cases hstay
  cases hstep with
  | recv hw hfull =>
    have hsame := hquiet.full
    rw [hfull] at hsame
    exact absurd hsame.symm (List.cons_ne_self _ _)
  | closed hw hfull hclosed | recycleClosed hw hend =>
    obtain ⟨hworkers, hbalance⟩ := h.move .exited trivial (by rw [hw]; rfl)
    exact { h with workers := hworkers, balance := hbalance }
  | abandon hw herr => exact absurd (Or.inl herr) hbefore
  | @finalize _ w q nonce rand pack hw herr hr =>
    rcases hquiet.workers w with hsame | ⟨-, hno⟩
    · dsimp only at hsame
      rw [Function.update_self, hw] at hsame
      cases hsame
    · refine absurd ?_ (hno pack)
      dsimp only
      rw [Function.update_self]
  | finalizeEmpty nonce rand hw herr hr =>
    -- only a packer that holds a blob is sent
    exact absurd (Packer.finalizeAndExtract_none hr) (h.fine hw).2
  | finalizeFail | uploadFail | persistFail => exact (hfailing rfl).elim
  | giveEmptied hw | giveBack hw => exact (h.fine hw).elim
  | @upload _ w pack hw hfresh =>
    have hdescribes : (s.jobs w).Describes pack := h.fine hw
    obtain ⟨hworkers, hbalance⟩ := h.move (.registering pack) hdescribes (by rw [hw]; rfl)
    exact { h with workers := hworkers, balance := hbalance }
  | @register _ w pack timedOut hw =>
    refine (hcounted (w := w) (by rw [hw]; rfl) ?_).elim
    dsimp only
    rw [Function.update_self, hw]
    split <;> exact fun heq => by cases heq
  | persist fid hw hfresh =>
    obtain ⟨hworkers, hbalance⟩ := h.move (.marking _ fid) trivial (by rw [hw]; rfl)
    exact { h with workers := hworkers, balance := hbalance }
  | @mark _ w ix fid hw =>
    refine (hcounted (w := w) (by rw [hw]; rfl) ?_).elim
    dsimp only
    rw [Function.update_self, hw]
    exact fun heq => by cases heq
  | recycle hw hopen =>
    obtain ⟨hworkers, hbalance⟩ := h.move .waiting trivial (by rw [hw]; rfl)
    refine { h with pool := ?_, workers := hworkers, balance := hbalance }
    intro q hq
    rcases List.mem_append.mp hq with hold | hnew
    · exact h.pool q hold
    · rw [List.mem_singleton.mp hnew]
      exact h.fine hw
  | @fail _ w q hw => exact absurd (Or.inr (Or.inr ⟨w, q, hw⟩)) hbefore

/-- **Every step keeps the balance, or the flush will fail.** -/
theorem Balanced.step [DecidableEq κ] {l : PipeEvent κ} (h : s.Balanced c) (hstep : Step env s l s')
    (hafter : ¬ s'.pipe.Lost) : s'.Balanced c := by
  have hbefore : ¬ s.pipe.Lost := fun hlost => hafter (hlost.step hstep.refines)
  have hbalance := h.balance
  cases hstep with
  | other hpipe hquiet =>
    cases hpipe with
    | call hcall => cases hcall <;> exact { h with }
    | saver hsaver => exact h.saverStep hsaver hquiet
    | worker hworker => exact h.workerStep hworker hquiet hbefore hafter
    | flush hflush => cases hflush <;> exact { h with }
  | @take x next p ps hs hne hpool =>
    -- the slot gets a fresh packer, and the full one is about to be sent
    refine { h with slots := ?_, pool := ?_, sending := ?_ }
    · intro x'
      by_cases heq : x' = x
      · subst heq
        dsimp only
        rw [Function.update_self, h.pool p (by rw [hpool]; exact List.mem_cons_self)]
        exact .new _
      · dsimp only
        rw [Function.update_of_ne heq]
        exact h.slots x'
    · intro q hq
      exact h.pool q (by rw [hpool]; exact List.mem_cons_of_mem _ hq)
    · intro q next' hq
      cases hq
      exact ⟨h.slots x, hne⟩
  | @send p next hs =>
    refine { h with sending := ?_, full := ?_ }
    · intro q next' hq
      exact absurd hq (phase_ne_sending next q next')
    · exact List.rel_append h.full (.cons (h.sending p next hs) .nil)
  | @recv w p ps t ts hw hfull htypes =>
    have hforall := h.full
    rw [hfull, htypes] at hforall
    obtain ⟨hhead, htail⟩ := List.forall₂_cons.mp hforall
    refine { h with full := htail, workers := ?_, balance := ?_ }
    · apply fine_update h.workers (fun i hi => Function.update_of_ne hi _ _) (fun _ _ => rfl)
      dsimp only
      rw [Function.update_self]
      exact hhead
    · dsimp only
      rw [sum_owed_move c (by rw [hw]; rfl)]
      exact hbalance
  | @finalize w p nonce rand r hw herr hr =>
    -- the statistics are captured here, with the padding among the descriptors
    have hdescribes := CapturedStats.describes_stats (h.fine hw).1 hr
    refine { h with workers := ?_, balance := ?_ }
    · apply fine_update h.workers (fun _ _ => rfl) (fun i hi => Function.update_of_ne hi _ _)
      dsimp only
      rw [Function.update_self]
      exact hdescribes
    · have hsum := sum_owed_update c s w (.uploading r.toFinalizedPack)
        (Function.update s.jobs w (r.stats (s.types w))) fun i hi => Function.update_of_ne hi _ _
      simp only [hw, Counter.owed, WorkerPhase.owes, Bool.false_eq_true, if_false]
        at hsum hbalance ⊢
      omega
  | @register w pack timedOut hw hnone =>
    have hpays : c.ofJob (s.jobs w) = c.ofPack pack := c.agrees (h.fine hw)
    refine { h with workers := ?_, balance := ?_ }
    · exact fine_update h.workers (fun _ _ => rfl) (fun _ _ => rfl) rfl
    · dsimp only
      rw [sum_owed_move c (by rw [hw]; rfl), c.update, List.map_append, List.sum_append,
        List.map_singleton, List.sum_singleton]
      omega
  | @registerFull w pack ix timedOut hw hsome =>
    have hpays : c.ofJob (s.jobs w) = c.ofPack pack := c.agrees (h.fine hw)
    refine { h with workers := ?_, balance := ?_ }
    · exact fine_update h.workers (fun _ _ => rfl) (fun _ _ => rfl) trivial
    · -- the worker owes its pack from here on
      have hsum := sum_owed_update c s w (.persisting ix) s.jobs fun _ _ => rfl
      have hnew : c.owed (.persisting ix) (s.jobs w) = c.ofJob (s.jobs w) := rfl
      have hold : c.owed (s.pipe.workers w) (s.jobs w) = 0 := by
        rw [hw]
        rfl
      dsimp only
      rw [List.map_append, List.sum_append, List.map_singleton, List.sum_singleton]
      omega
  | @mark w ix fid size hw =>
    refine { h with workers := ?_, balance := ?_ }
    · exact fine_update h.workers (fun _ _ => rfl) (fun _ _ => rfl) rfl
    · -- the worker pays what it owed
      have hsum := sum_owed_update c s w (.recycling .new) s.jobs fun _ _ => rfl
      have hnew : c.owed (.recycling .new) (s.jobs w) = 0 := rfl
      have hold : c.owed (s.pipe.workers w) (s.jobs w) = c.ofJob (s.jobs w) := by
        rw [hw]
        rfl
      dsimp only
      rw [c.update]
      omega
  | done size hf =>
    refine { h with balance := ?_ }
    dsimp only
    rw [c.addIndex]
    exact hbalance

end CountingPipe

/-! ## The end of a run -/

namespace Pipe

variable {κ : Type} {n : Nat} {env : Env} {b b' : Backend} {s s' : Pipe κ n}

/-- What has ended before a flush writes the index. -/
structure Closing (s : Pipe κ n) : Prop where
  finished : s.saver = .finished true → s.firstErr = false ∧ ∀ w, s.workers w = .exited
  flush : ∀ todo, s.flush.remaining = some todo → s.saver = .finished true

theorem Closing.init (index : MasterIndex) : (Pipe.init index : Pipe κ n).Closing where
  finished := fun h => (by cases h)
  flush := fun _ h => (by cases h)

theorem Closing.step [DecidableEq κ] {l : PipeEvent κ} (h : s.Closing)
    (hstep : Step env b s l b' s') :
    s'.Closing := by
  cases hstep with
  | call hcall => cases hcall <;> exact { h with }
  | saver hsaver =>
    have hopen := hsaver.not_ended
    refine ⟨?_, ?_⟩
    · intro hfin
      cases hsaver with
      | join hs hall => exact ⟨by simpa using hfin, hall⟩
      | start hs | startFail hs | addFail hs | close hs | take hs | disconnect hs => cases hfin
      | skip hs =>
        rw [hs] at hfin
        cases hfin
      | add hs =>
        dsimp only at hfin
        split at hfin <;> cases hfin
      | @dispatchEmpty x next hs => cases next <;> cases hfin
      | @send p next hs => cases next <;> cases hfin
    · intro todo htodo
      rw [hsaver.frame.2] at htodo
      rw [h.flush todo htodo] at hopen
      cases hopen
  | worker hworker =>
    obtain ⟨hsaver, -, -, -, -, hflush, -⟩ := hworker.frame
    refine ⟨?_, ?_⟩
    · intro hfin
      rw [hsaver] at hfin
      obtain ⟨w, _, -, hne, -⟩ := hworker.moves
      exact absurd ((h.finished hfin).2 w) hne
    · rw [hflush, hsaver]
      exact h.flush
  | flush hflush =>
    cases hflush with
    | take hf | joinFail hf | persistFail hf =>
      exact { h with flush := fun todo ht => (by cases ht) }
    | joinOk hf hs => exact { h with flush := fun todo ht => hs }
    | persist fid hf hfresh =>
      refine { h with flush := fun todo ht => h.flush todo ?_ }
      rw [hf]
      exact ht
    | mark hf => exact { h with flush := fun todo ht => h.flush _ (by rw [hf]; rfl) }
    | done hf => exact { h with flush := fun todo ht => h.flush _ (by rw [hf]; rfl) }

/-- After a successful flush every worker has left and none has failed. -/
theorem Closing.exited (h : s.Closing) (hflush : s.flush = .finished true) :
    ¬ s.Lost ∧ ∀ w, s.workers w = .exited := by
  have hfin : s.saver = .finished true := h.flush [] (by rw [hflush]; rfl)
  obtain ⟨herr, hall⟩ := h.finished hfin
  refine ⟨?_, hall⟩
  rintro (hlost | hlost | ⟨w, p, hw⟩)
  · rw [herr] at hlost
    cases hlost
  · rw [hfin] at hlost
    cases hlost
  · rw [hall w] at hw
    cases hw

end Pipe

/-- The pack that an event adds to the index. -/
def PipeEvent.registered {κ : Type} : PipeEvent κ → Option FinalizedPack
  | .register pack => some pack
  | _ => none

namespace CountingPipe

variable {κ : Type} {n : Nat} [DecidableEq κ] {env : Env} {b : Backend} {index : MasterIndex}
  {s s' : CountingPipe κ n} {ls : List (PipeEvent κ)}

theorem Step.packs_eq {l : PipeEvent κ} (h : Step env s l s') :
    s'.packs = s.packs ++ l.registered.toList := by
  cases h with
  | other hpipe hquiet =>
    have hnone : l.registered = none := by
      cases hpipe with
      | call hcall => cases hcall <;> rfl
      | saver hsaver => rfl
      | flush hflush => cases hflush <;> rfl
      | worker hworker =>
        cases hworker with
        | @register _ w pack timedOut hw =>
          -- the end of `add_pack` is counted
          rcases hquiet.workers w with hsame | ⟨hstay, -⟩
          · dsimp only at hsame
            rw [Function.update_self, hw] at hsame
            split at hsame <;> cases hsame
          · rw [hw] at hstay
            cases hstay
        | _ => rfl
    rw [hnone]
    exact (List.append_nil _).symm
  | register timedOut hw hnone => rfl
  | registerFull timedOut hw hsome => rfl
  | take | send | recv | finalize | mark | done => exact (List.append_nil _).symm

/-- The packs in the index are those that the events of the run have put there. -/
theorem packs_of_run (hrun : Run (Step env) (start b index : CountingPipe κ n) ls s) :
    s.packs = ls.filterMap PipeEvent.registered := by
  induction hrun with
  | nil => rfl
  | @snoc ls t u l hrun hstep ih =>
    rw [hstep.packs_eq, ih, List.filterMap_append]
    cases hl : l.registered with
    | none => simp [hl]
    | some pack => simp [hl]

/-- **A successful flush returns counters that sum up the packs.** -/
theorem balance_of_flush (c : Counter)
    (hrun : Run (Step env) (start b index : CountingPipe κ n) ls s)
    (hflush : s.pipe.flush = .finished true) :
    c.stat s.stats = ((ls.filterMap PipeEvent.registered).map c.ofPack).sum := by
  have hclosing : s.pipe.Closing :=
    hrun.invariant (P := fun t => t.pipe.Closing) (fun _ _ _ h hstep => h.step hstep.refines)
      (.init index)
  obtain ⟨hok, hall⟩ := hclosing.exited hflush
  -- a run that has lost a pack does not flush, the others stay balanced
  have hbalanced : s.pipe.Lost ∨ s.Balanced c := by
    refine hrun.invariant (P := fun t => t.pipe.Lost ∨ t.Balanced c) ?_ (Or.inr (.start c b index))
    rintro t l u (hlost | hbal) hstep
    · exact Or.inl (hlost.step hstep.refines)
    · by_cases hlost : u.pipe.Lost
      · exact Or.inl hlost
      · exact Or.inr (hbal.step hstep hlost)
  have hbal := (hbalanced.resolve_left hok).balance
  have hnone : ∑ w, c.owed (s.pipe.workers w) (s.jobs w) = 0 := by
    apply Finset.sum_eq_zero
    intro w _
    rw [hall w]
    rfl
  rw [hnone, Nat.add_zero, packs_of_run hrun] at hbal
  exact hbal

/-- The statistics of a run that has put these packs into the index count their blobs. -/
structure StatsExact (s : CountingPipe κ n) (packs : List FinalizedPack) : Prop where
  dataBlobs : s.stats.snapshot.blobs = (packs.map fun pack => pack.numBlobs .data).sum
  metaBlobs : s.stats.snapshot.metaBlobs = (packs.map fun pack => pack.numBlobs .tree).sum
  rawBytes : s.stats.snapshot.data.raw = (packs.map FinalizedPack.rawBytes).sum

end CountingPipe

/-- Padded counts sum up to the blobs exactly when no pack is padded. -/
theorem sum_paddedBlobs_eq_iff {packs : List FinalizedPack} {t : BlobType} :
    (packs.map fun pack => pack.paddedBlobs t).sum = (packs.map fun pack => pack.numBlobs t).sum ↔
      ∀ pack ∈ packs, footerBlobMultiple ∣ pack.numBlobs t := by
  have hsplit : (packs.map fun pack => pack.paddedBlobs t).sum =
      (packs.map fun pack => pack.numBlobs t).sum +
        (packs.map fun pack => Packer.numPadding (pack.numBlobs t)).sum := List.sum_map_add
  rw [hsplit, Nat.add_eq_left, List.sum_eq_zero_iff, List.forall_mem_map]
  exact forall₂_congr fun _ _ => Packer.numPadding_eq_zero_iff

namespace CountingPipe

variable {κ : Type} {n : Nat} [DecidableEq κ] {env : Env} {b : Backend} {index : MasterIndex}
  {s : CountingPipe κ n} {t : SaveSystem κ n} {ls : List (PipeEvent κ)}

/-- **The blob statistics count the padding.** After a successful flush they are the numbers of data
and tree blobs in the packs of the run exactly when no pack was padded. -/
theorem statsExact_iff (hrun : Run (Step env) (start b index : CountingPipe κ n) ls s)
    (hflush : s.pipe.flush = .finished true) :
    s.StatsExact (ls.filterMap PipeEvent.registered) ↔
      ∀ pack, PipeEvent.register pack ∈ ls →
        footerBlobMultiple ∣ pack.numBlobs .data ∧ footerBlobMultiple ∣ pack.numBlobs .tree := by
  have hdata := balance_of_flush .dataBlobs hrun hflush
  have hmeta := balance_of_flush .metaBlobs hrun hflush
  have hraw := balance_of_flush .rawBytes hrun hflush
  have hmem : ∀ pack, pack ∈ ls.filterMap PipeEvent.registered ↔ PipeEvent.register pack ∈ ls := by
    intro pack
    rw [List.mem_filterMap]
    constructor
    · rintro ⟨l, hl, hpack⟩
      cases l <;> cases hpack
      exact hl
    · intro h
      exact ⟨.register pack, h, rfl⟩
  constructor
  · rintro ⟨hd, hm, -⟩ pack hpack
    rw [← hmem] at hpack
    exact ⟨sum_paddedBlobs_eq_iff.mp (hdata.symm.trans hd) pack hpack,
      sum_paddedBlobs_eq_iff.mp (hmeta.symm.trans hm) pack hpack⟩
  · intro h
    refine ⟨hdata.trans (sum_paddedBlobs_eq_iff.mpr ?_),
      hmeta.trans (sum_paddedBlobs_eq_iff.mpr ?_),
      hraw⟩
    · exact fun pack hpack => (h pack ((hmem pack).mp hpack)).1
    · exact fun pack hpack => (h pack ((hmem pack).mp hpack)).2

/-! ## Every run is counted -/

/-- Each packer in the channel has its type beside it. -/
def Tagged (s : CountingPipe κ n) : Prop := s.fullTypes.length = s.pipe.full.length

theorem Tagged.step {s s' : CountingPipe κ n} {l : PipeEvent κ} (h : s.Tagged)
    (hstep : Step env s l s') : s'.Tagged := by
  unfold Tagged at h ⊢
  cases hstep with
  | other hpipe hquiet => rw [hquiet.full, h]
  | send hs => simp [h]
  | recv hw hfull htypes =>
    rw [hfull, htypes] at h
    exact Nat.succ_inj.mp h
  | take | finalize | register | registerFull | mark | done => exact h

omit [DecidableEq κ] in
/-- A worker that moves without ending `add_pack` and without finalizing a pack is not counted. -/
theorem uncounted_of_move {p : Pipe κ n} {w : Fin n} {phase : WorkerPhase}
    (hworkers : p.workers = Function.update s.pipe.workers w phase) (hfull : p.full = s.pipe.full)
    (hsaver : p.saver = s.pipe.saver) (hflush : p.flush = s.pipe.flush)
    (hstay : (s.pipe.workers w).leavesAddPack = false) (hphase : ∀ pack, phase ≠ .uploading pack) :
    s.pipe.Uncounted p where
  full := hfull
  sending := fun q next hq => hsaver.symm.trans hq
  workers := by
    intro i
    rw [hworkers]
    by_cases hi : i = w
    · subst hi
      rw [Function.update_self]
      exact Or.inr ⟨hstay, hphase⟩
    · exact Or.inl (Function.update_of_ne hi _ _)
  flush := fun h => hflush.symm.trans h

theorem exists_workerStep (h : s.Tagged) {l : PipeEvent κ} {b : Backend} {p : Pipe κ n}
    (hstep : Pipe.WorkerStep env s.backend s.pipe l b p) :
    ∃ s', Step env s l s' ∧ s'.pipe = p ∧ s'.backend = b := by
  have hquiet : s.pipe.Uncounted p → ∃ s', Step env s l s' ∧ s'.pipe = p ∧ s'.backend = b :=
    fun hq => ⟨_, .other (.worker hstep) hq, rfl, rfl⟩
  cases hstep with
  | recv hw hfull =>
    cases htypes : s.fullTypes with
    | nil =>
      rw [Tagged, hfull, htypes] at h
      cases h
    | cons t ts => exact ⟨_, .recv hw hfull htypes, rfl, rfl⟩
  | finalize nonce rand hw herr hr =>
    obtain ⟨r, hr', rfl⟩ := Packer.exists_finalizeWithSizes hr
    exact ⟨_, .finalize nonce rand hw herr hr', rfl, rfl⟩
  | @register _ w pack timedOut hw =>
    cases hadd :
      (s.pipe.index.addPackLocked env.toIndexEnv pack.id pack.descriptors timedOut).2 with
    | none => exact ⟨_, .register timedOut hw hadd, rfl, rfl⟩
    | some ix => exact ⟨_, .registerFull timedOut hw hadd, rfl, rfl⟩
  | mark hw => exact ⟨_, .mark .zero hw, rfl, rfl⟩
  | closed hw | abandon hw | finalizeEmpty _ _ hw | finalizeFail _ _ hw | giveEmptied hw | upload hw
  | uploadFail hw | persist _ hw | persistFail hw | recycle hw | recycleClosed hw | fail hw
  | giveBack hw =>
    apply hquiet
    exact uncounted_of_move rfl rfl rfl rfl (by rw [hw]; rfl) fun pack hp => by cases hp

/-- The pipeline takes no step that is not counted. -/
theorem exists_step (h : s.Tagged) {l : PipeEvent κ} {b : Backend} {p : Pipe κ n}
    (hstep : Pipe.Step env s.backend s.pipe l b p) :
    ∃ s', Step env s l s' ∧ s'.pipe = p ∧ s'.backend = b := by
  have hquiet : s.pipe.Uncounted p → ∃ s', Step env s l s' ∧ s'.pipe = p ∧ s'.backend = b :=
    fun hq => ⟨_, .other hstep hq, rfl, rfl⟩
  cases hstep with
  | call hcall =>
    apply hquiet
    cases hcall <;> exact ⟨rfl, fun _ _ hq => hq, fun _ => Or.inl rfl, fun hf => hf⟩
  | saver hsaver =>
    cases hsaver with
    | take hs hne hpool => exact ⟨_, .take hs hne hpool, rfl, rfl⟩
    | send hs => exact ⟨_, .send hs, rfl, rfl⟩
    | skip hs hq hr =>
      apply hquiet
      exact ⟨rfl, fun _ _ hq => hq, fun _ => Or.inl rfl, fun hf => hf⟩
    | add hs hq hr hadd =>
      apply hquiet
      refine ⟨rfl, ?_, fun _ => Or.inl rfl, fun hf => hf⟩
      intro q next hsend
      dsimp only at hsend
      split at hsend <;> cases hsend
    | @dispatchEmpty x next hs hempty =>
      apply hquiet
      exact ⟨rfl, fun q next' hq => absurd hq (phase_ne_sending next q next'),
        fun _ => Or.inl rfl, fun hf => hf⟩
    | start hs | startFail hs | addFail hs | close hs | disconnect hs | join hs =>
      apply hquiet
      exact ⟨rfl, fun _ _ hq => (by cases hq), fun _ => Or.inl rfl, fun hf => hf⟩
  | worker hworker => exact exists_workerStep h hworker
  | flush hflush =>
    cases hflush with
    | done hf => exact ⟨_, .done .zero hf, rfl, rfl⟩
    | take hf | joinFail hf | joinOk hf | persist fid hf | persistFail hf | mark hf =>
      apply hquiet
      exact ⟨rfl, fun _ _ hq => hq, fun _ => Or.inl rfl, fun h => by cases h⟩

/-- Every run of the pipeline is a run with statistics. -/
theorem exists_run (hrun : Run (SaveSystem.Step env) ⟨b, .init index⟩ ls t) :
    ∃ s, Run (Step env) (start b index : CountingPipe κ n) ls s ∧ s.pipe = t.pipe := by
  have htagged : ∃ s, Run (Step env) (start b index : CountingPipe κ n) ls s ∧ s.Tagged ∧
      s.backend = t.backend ∧ s.pipe = t.pipe := by
    induction hrun with
    | nil => exact ⟨_, .nil, rfl, rfl, rfl⟩
    | @snoc ls t u l hrun hstep ih =>
      obtain ⟨s, hs, htag, hbackend, hpipe⟩ := ih
      have hstep' : Pipe.Step env s.backend s.pipe l u.backend u.pipe := by
        rw [hbackend, hpipe]
        exact hstep
      obtain ⟨s', hnext, hpipe', hbackend'⟩ := exists_step htag hstep'
      exact ⟨s', hs.snoc hnext, htag.step hnext, hbackend', hpipe'⟩
  obtain ⟨s, hs, -, -, hpipe⟩ := htagged
  exact ⟨s, hs, hpipe⟩

/-- One data blob is saved, and its pack is padded. -/
theorem exists_run_padded : ∃ ls s, Run (Step sampleEnv)
      (start emptyBackend (emptyBackend.reloadMasterIndex sampleEnv.toIndexEnv emptyInstances) :
        CountingPipe Unit 1) ls s ∧
    s.pipe.flush = .finished true ∧ s.pipe.saved = [sampleBlob .data] ∧
    ∃ pack, PipeEvent.register pack ∈ ls ∧ pack.numBlobs .data = 1 := by
  obtain ⟨ls, t, hrun, -, hflush, hsaved, -, pack, hpack, hdescriptors⟩ := exists_run_data
  obtain ⟨s, hs, hpipe⟩ := exists_run hrun
  refine ⟨ls, s, hs, hpipe ▸ hflush, hpipe ▸ hsaved, pack, hpack, ?_⟩
  rw [FinalizedPack.numBlobs, hdescriptors, List.countP_eq_length_filter,
    Packer.filter_pad (by decide)]
  rfl

/-- The statistics of a snapshot with one data blob do not count one data blob. -/
theorem not_statsExact_padded : ∃ (ls : List (PipeEvent Unit)) (s : CountingPipe Unit 1),
    Run (Step sampleEnv) (start emptyBackend
      (emptyBackend.reloadMasterIndex sampleEnv.toIndexEnv emptyInstances)) ls s ∧
    s.pipe.flush = .finished true ∧ s.pipe.saved = [sampleBlob .data] ∧
    ¬ s.StatsExact (ls.filterMap PipeEvent.registered) := by
  obtain ⟨ls, s, hrun, hflush, hsaved, pack, hpack, hone⟩ := exists_run_padded
  refine ⟨ls, s, hrun, hflush, hsaved, ?_⟩
  intro hexact
  have hpadded := sum_paddedBlobs_eq_iff.mp
    ((balance_of_flush .dataBlobs hrun hflush).symm.trans hexact.dataBlobs) pack
    (List.mem_filterMap.mpr ⟨_, hpack, rfl⟩)
  rw [hone] at hpadded
  exact absurd hpadded (by decide)

theorem statsExact_iff_padded : ∃ (ls : List (PipeEvent Unit)) (s : CountingPipe Unit 1),
    s.pipe.flush = .finished true ∧ (s.StatsExact (ls.filterMap PipeEvent.registered) ↔
      ∀ pack, PipeEvent.register pack ∈ ls →
        footerBlobMultiple ∣ pack.numBlobs .data ∧ footerBlobMultiple ∣ pack.numBlobs .tree) := by
  obtain ⟨ls, s, hrun, hflush, -⟩ := exists_run_padded
  exact ⟨ls, s, hflush, statsExact_iff hrun hflush⟩

end CountingPipe

end Mapache
