import Mapache.Lib.Run
import Mapache.Repository.MasterIndex
import Mapache.Repository.SaveBlob

/-!
# What `contains` knows

The methods of `MasterIndex` as one system: each step is one method, or the part of one that runs
under the lock of the indices, and the steps of different threads may come in any order.
`Index.Built` says how an index that is handed to `add_index` can have come about.

`contains` answers for exactly the blobs that are pending or listed, the Bloom filter knows every
listed blob, and an answer stays positive as long as no cleanup takes every pack of the blob
(`contains_of_run`). The filter does not know the pending blobs: `contains` asks for those first. A
merge of the indices keeps exactly the entries that survive it (`cleanup_spec`).
-/

set_option autoImplicit false

namespace Mapache

open Lib

/-! ## Indices that can be handed over -/

/-- The indices that the methods of `Index` build. -/
inductive Index.Built (env : IndexEnv) : Index → Prop where
  | new (instanceId : Nat) : Built env (.new instanceId)
  | fromIndexFile (f : IndexFile) (fid : ID) (instanceId : Nat) :
      Built env (.fromIndexFile env instanceId f fid)
  | addPack {ix : Index} (packId : ID) (ds : List PackedBlobDescriptor) :
      Built env ix → Built env (ix.addPack packId ds)
  | finalize {ix : Index} : Built env ix → Built env ix.finalize
  /-- A successful `persist`. -/
  | persist {ix : Index} (fid : ID) :
      Built env ix → Built env ((ix.freeze env).setStatus (.persisted fid))

/-- An index that accepts packs can store them: only `persist` and the loader freeze the maps, and
both leave the index persisted. -/
theorem Index.Built.isMutable {env : IndexEnv} {ix : Index} (h : ix.Built env)
    (hp : ix.isPending = true) : ix.IsMutable := by
  induction h with
  | new instanceId => exact ⟨trivial, trivial⟩
  | fromIndexFile f fid instanceId => cases hp
  | addPack packId ds _ ih =>
    rw [Index.isPending, Index.addPack_status] at hp
    exact (ih hp).addPack packId ds
  | finalize | persist => cases hp

namespace MasterIndex

/-! ## The methods as steps -/

/-- `MasterIndex::add_pending_blob`. -/
def addPendingBlob (env : IndexEnv) (mi : MasterIndex) (id : ID) : MasterIndex :=
  if id ∈ mi.pendingBlobs ∨ mi.anyIndexContains env id = true then mi else mi.insertPending id

/-- The last section of `persist` and of `add_pack`, for any status that the written copy has: a
copy without entries is only finalized. -/
def recordStatus (mi : MasterIndex) (instanceId : Nat) (status : IndexStatus) : MasterIndex :=
  { mi with
    indices := modifyFirst (fun ix => ix.instanceId = instanceId) (fun ix => ix.setStatus status)
      mi.indices }

/-- The methods, with the sections of `persist` and `add_pack` on their own. -/
inductive Op where
  | addIndex (ix : Index)
  | addPendingBlob (id : ID)
  | addPack (packId : ID) (ds : List PackedBlobDescriptor) (timedOut : Bool)
  | persist
  | recordStatus (instanceId : Nat) (status : IndexStatus)
  | initializeBloomFilter (totalBlobs : Nat)
  | cleanup (obsolete : Option (Finset ID))

/-- One step of one thread. -/
inductive Step (env : IndexEnv) : MasterIndex → Op → MasterIndex → Prop where
  | addIndex {mi : MasterIndex} {ix : Index} (hbuilt : ix.Built env) :
      Step env mi (.addIndex ix) (mi.addIndex ix)
  | addPendingBlob {mi : MasterIndex} (id : ID) :
      Step env mi (.addPendingBlob id) (mi.addPendingBlob env id)
  | addPack {mi : MasterIndex} (packId : ID) (ds : List PackedBlobDescriptor) (timedOut : Bool) :
      Step env mi (.addPack packId ds timedOut) (mi.addPackLocked env packId ds timedOut).1
  | persist {mi : MasterIndex} : Step env mi .persist mi.finalizeAll
  | recordStatus {mi : MasterIndex} {instanceId : Nat} {status : IndexStatus}
      (hstatus : status ≠ .pending) :
      Step env mi (.recordStatus instanceId status) (mi.recordStatus instanceId status)
  | initializeBloomFilter {mi : MasterIndex} (totalBlobs : Nat) :
      Step env mi (.initializeBloomFilter totalBlobs) (mi.initializeBloomFilter env totalBlobs)
  | cleanup {mi : MasterIndex} (obsolete : Option (Finset ID)) :
      Step env mi (.cleanup obsolete) (mi.cleanup env obsolete)

/-- What every method keeps: pending indices accept entries, and the filter knows every listed blob.
-/
structure Prefiltered (mi : MasterIndex) : Prop where
  isMutable : ∀ ix ∈ mi.indices, ix.isPending = true → ix.IsMutable
  bloom : ∀ bf, mi.bloomFilter = some bf → ∀ id l, (id, l) ∈ mi.entries → bf.contains id = true

section Steps

variable {env : IndexEnv} {mi mi' : MasterIndex} {op : Op} {id : ID}

theorem mem_entries_addIndex {ix : Index} {e : ID × BlobLocator} :
    e ∈ (mi.addIndex ix).entries ↔ e ∈ mi.entries ∨ e ∈ ix.iterIds := by
  simp only [entries, addIndex, List.flatMap_append, List.flatMap_singleton, List.mem_append]

theorem entries_recordStatus (mi : MasterIndex) (n : Nat) (status : IndexStatus) :
    (mi.recordStatus n status).entries = mi.entries := by
  have hmap := map_modifyFirst (p := fun ix : Index => decide (ix.instanceId = n))
    (f := fun ix => ix.setStatus status) (g := Index.iterIds) (fun _ => rfl) mi.indices
  simp only [entries, List.flatMap_def]
  exact congrArg List.flatten hmap

@[simp] theorem entries_addPendingBlob (env : IndexEnv) (mi : MasterIndex) (id : ID) :
    (mi.addPendingBlob env id).entries = mi.entries := by
  unfold addPendingBlob
  split <;> rfl

/-- **Every method keeps the filter a superset.** -/
theorem Prefiltered.step (h : mi.Prefiltered) (hstep : Step env mi op mi') : mi'.Prefiltered := by
  cases hstep with
  | @addIndex ix hbuilt =>
    refine ⟨fun ix' hix' hp => ?_, fun bf hbf id l hmem => ?_⟩
    · rcases List.mem_append.mp hix' with hold | hnew
      · exact h.isMutable ix' hold hp
      · rw [List.mem_singleton.mp hnew] at hp ⊢
        exact hbuilt.isMutable hp
    · obtain ⟨bf₀, hbf₀, rfl⟩ := Option.map_eq_some_iff.mp hbf
      rcases mem_entries_addIndex.mp hmem with hold | hnew
      · exact BloomFilter.contains_insertAll_of_contains _ (h.bloom bf₀ hbf₀ id l hold)
      · exact BloomFilter.contains_insertAll (List.mem_map_of_mem hnew)
  | addPendingBlob id =>
    unfold addPendingBlob
    split
    · exact h
    · exact ⟨h.isMutable, h.bloom⟩
  | addPack packId ds timedOut =>
    exact ⟨isMutable_addPackLocked h.isMutable, bloom_addPackLocked h.bloom⟩
  | persist =>
    refine ⟨isMutable_finalizeAll h.isMutable, fun bf hbf id l hmem => ?_⟩
    rw [entries_finalizeAll] at hmem
    exact h.bloom bf hbf id l hmem
  | @recordStatus n status hstatus =>
    refine ⟨fun ix hix hp => ?_, fun bf hbf id l hmem => ?_⟩
    · rcases mem_modifyFirst_sound hix with hold | ⟨ix₀, _, _, rfl⟩
      · exact h.isMutable ix hold hp
      · exact absurd (of_decide_eq_true hp) hstatus
    · rw [entries_recordStatus] at hmem
      exact h.bloom bf hbf id l hmem
  | initializeBloomFilter totalBlobs =>
    refine ⟨h.isMutable, fun bf hbf id l hmem => ?_⟩
    cases hbf
    exact BloomFilter.contains_insertAll (List.mem_map_of_mem hmem)
  | cleanup obsolete =>
    exact ⟨(rebuilt_cleanup env mi obsolete).isMutable,
      fun bf hbf id l hmem => h.bloom bf hbf id l (mem_entries_cleanup hmem).1⟩

theorem Prefiltered.contains_iff (h : mi.Prefiltered) :
    mi.contains env id = true ↔ id ∈ mi.pendingBlobs ∨ ∃ l, (id, l) ∈ mi.entries := by
  rw [MasterIndex.contains, Bool.or_eq_true, decide_eq_true_eq]
  refine or_congr_right ⟨exists_mem_of_indexContains, fun ⟨l, hl⟩ => ?_⟩
  rw [indexContains, Bool.and_eq_true]
  refine ⟨?_, anyIndexContains_iff.mpr ⟨l, hl⟩⟩
  split
  · exact h.bloom _ ‹_› id l hl
  · rfl

/-- A step that may not forget the blob: a cleanup leaves one of its packs or finds it pending, and
no padding of a pack carries its ID. -/
def Op.Spares (id : ID) (mi : MasterIndex) : Op → Prop
  | .cleanup obsolete =>
    id ∈ mi.pendingBlobs ∨ ∃ l, (id, l) ∈ mi.entries ∧ isObsolete obsolete l.packId = false
  | .addPack _ ds _ => ∀ d ∈ ds, d.blobType = .padding → d.id ≠ id
  | _ => True

/-- The blob is pending or listed. -/
def Known (mi : MasterIndex) (id : ID) : Prop := id ∈ mi.pendingBlobs ∨ ∃ l, (id, l) ∈ mi.entries

/-- **A known blob stays known** through a step that spares it. -/
theorem Known.step (hmi : mi.Prefiltered) (h : mi.Known id)
    (hstep : Guarded (Step env) (fun mi op => op.Spares id mi) mi op mi') : mi'.Known id := by
  obtain ⟨hstep, hspares⟩ := hstep
  cases hstep with
  | addIndex hbuilt =>
    exact h.imp_right fun ⟨l, hl⟩ => ⟨l, mem_entries_addIndex.mpr (Or.inl hl)⟩
  | addPendingBlob id' =>
    refine h.imp (fun hp => ?_) (fun ⟨l, hl⟩ => ⟨l, by rwa [entries_addPendingBlob]⟩)
    unfold addPendingBlob
    split
    · exact hp
    · exact Finset.mem_insert_of_mem hp
  | addPack packId ds timedOut =>
    rcases h with hp | ⟨l, hl⟩
    · -- the blob leaves the pending ones when the pack has it, and then the index lists it
      by_cases hd : ∃ d ∈ ds, d.id = id
      · obtain ⟨d, hd, rfl⟩ := hd
        have hne : d.blobType ≠ .padding := fun hpad => hspares d hd hpad rfl
        obtain ⟨l', hl', -⟩ := addPackLocked_self hmi.isMutable env packId timedOut hd hne
        exact Or.inr ⟨l', hl'⟩
      · refine Or.inl (Finset.mem_sdiff.mpr ⟨hp, fun hmem => hd ?_⟩)
        obtain ⟨d, hmem, heq⟩ := List.mem_map.mp (List.mem_toFinset.mp hmem)
        exact ⟨d, hmem, heq⟩
    · obtain ⟨l', hl', -⟩ := addPackLocked_complete env packId ds timedOut hl
      exact Or.inr ⟨l', hl'⟩
  | persist => exact h.imp_right fun ⟨l, hl⟩ => ⟨l, by rwa [entries_finalizeAll]⟩
  | recordStatus hstatus => exact h.imp_right fun ⟨l, hl⟩ => ⟨l, by rwa [entries_recordStatus]⟩
  | initializeBloomFilter totalBlobs => exact h
  | cleanup obsolete =>
    exact hspares.imp_right fun ⟨l, hl, hobs⟩ => cleanup_complete env hl hobs

theorem Prefiltered.new : MasterIndex.new.Prefiltered := ⟨WF.new.isMutable, WF.new.bloom⟩

end Steps

/-- **`contains` has no false negative and does not go back to false.** In every state that the
methods reach, it answers for exactly the blobs that are pending or listed, and the Bloom filter
accepts every listed one. From there on it goes on answering for a blob until a cleanup takes every
pack of it. -/
theorem contains_of_run {env : IndexEnv} {ops : List Op} {mi : MasterIndex}
    (hrun : Run (Step env) .new ops mi) :
    (∀ id, mi.contains env id = true ↔ id ∈ mi.pendingBlobs ∨ ∃ l, (id, l) ∈ mi.entries) ∧
      (∀ bf, mi.bloomFilter = some bf → ∀ id l, (id, l) ∈ mi.entries → bf.contains id = true) ∧
      ∀ id ops' mi', Run (Guarded (Step env) fun mi op => op.Spares id mi) mi ops' mi' →
        mi.contains env id = true → mi'.contains env id = true := by
  have hmi : mi.Prefiltered := hrun.invariant (fun _ _ _ h hstep => h.step hstep) .new
  refine ⟨fun id => hmi.contains_iff, hmi.bloom, fun id ops' mi' hrun' hcontains => ?_⟩
  -- both halves are kept by every step that spares the blob
  have hboth : mi'.Prefiltered ∧ mi'.Known id :=
    hrun'.invariant (P := fun mi => mi.Prefiltered ∧ mi.Known id)
      (fun _ _ _ h hstep => ⟨h.1.step hstep.1, h.2.step h.1 hstep⟩)
      ⟨hmi, hmi.contains_iff.mp hcontains⟩
  exact hboth.1.contains_iff.mpr hboth.2

/-- A pending blob is known, and still is after its pack was added. -/
theorem contains_after_addPack :
    (((MasterIndex.new.addPendingBlob sampleEnv.toIndexEnv 5).addPackLocked sampleEnv.toIndexEnv 9
      [⟨5, .data, 0, 2, 1⟩] false).1).contains sampleEnv.toIndexEnv 5 = true := by
  have hrun : Run (Step sampleEnv.toIndexEnv) .new _ _ := .snoc .nil (.addPendingBlob 5)
  obtain ⟨hiff, -, hstays⟩ := contains_of_run hrun
  have hpending : 5 ∈ (MasterIndex.new.addPendingBlob sampleEnv.toIndexEnv 5).pendingBlobs := by
    decide
  refine hstays 5 _ _ (Run.snoc .nil ⟨.addPack 9 [⟨5, .data, 0, 2, 1⟩] false, ?_⟩)
    ((hiff 5).mpr (Or.inl hpending))
  intro d hd hpad
  rw [List.mem_singleton.mp hd] at hpad
  cases hpad

/-- The Bloom filter does not know the blobs that are only pending. -/
theorem bloom_rejects_pending : ∃ ops mi bf, Run (Step sampleEnv.toIndexEnv) .new ops mi ∧
    mi.bloomFilter = some bf ∧ 5 ∈ mi.pendingBlobs ∧ bf.contains 5 = false := by
  have hrun : Run (Step sampleEnv.toIndexEnv) .new _ _ :=
    .snoc (.snoc .nil (.initializeBloomFilter 10)) (.addPendingBlob 5)
  exact ⟨_, _, _, hrun, rfl, by decide, by decide⟩

/-! ## A merge -/

/-- **A merge keeps exactly the entries that survive.** A blob is found afterwards if and only if
some index had an entry for it outside the obsolete packs; a lookup answers with such an entry; no
entry is in an obsolete pack; all indices but at most one are full; and none counts as persisted.
`contains` also counts the blobs that are on their way into a pack. -/
theorem cleanup_spec (env : IndexEnv) (mi : MasterIndex) (obsolete : Option (Finset ID))
    (hbloom : ∀ bf, mi.bloomFilter = some bf → ∀ id l, (id, l) ∈ mi.entries → bf.contains id = true) :
    (∀ id, ((mi.cleanup env obsolete).contains env id = true ↔ id ∈ mi.pendingBlobs ∨
      ∃ l, (id, l) ∈ mi.entries ∧ isObsolete obsolete l.packId = false)) ∧
    (∀ id, (((mi.cleanup env obsolete).get env id).isSome = true ↔
      ∃ l, (id, l) ∈ mi.entries ∧ isObsolete obsolete l.packId = false)) ∧
    (∀ id l, (mi.cleanup env obsolete).get env id = some l →
      (id, l) ∈ mi.entries ∧ isObsolete obsolete l.packId = false) ∧
    (∀ e ∈ (mi.cleanup env obsolete).entries, isObsolete obsolete e.2.packId = false) ∧
    (∃ full last, (mi.cleanup env obsolete).indices = full ++ last ∧
      (∀ ix ∈ full, ix.isFull env = true) ∧ last.length ≤ 1) ∧
    ∀ ix ∈ (mi.cleanup env obsolete).indices, ix.isPersisted = false := by
  have hentries : ∀ id, (∃ l, (id, l) ∈ (mi.cleanup env obsolete).entries) ↔
      ∃ l, (id, l) ∈ mi.entries ∧ isObsolete obsolete l.packId = false := by
    intro id
    constructor
    · rintro ⟨l, hl⟩
      exact ⟨l, mem_entries_cleanup hl⟩
    · rintro ⟨l, hl, hobs⟩
      exact cleanup_complete env hl hobs
  refine ⟨fun id => ?_, fun id => ?_, fun id l hget => mem_entries_cleanup (mem_of_get hget),
    fun e he => (mem_entries_cleanup he).2, ?_, unsaved_cleanup env mi obsolete⟩
  · rw [contains, Bool.or_eq_true, decide_eq_true_eq, ← hentries]
    refine or_congr_right ⟨exists_mem_of_indexContains, ?_⟩
    -- the Bloom filter still knows every blob that is left
    rintro ⟨l, hl⟩
    rw [indexContains, Bool.and_eq_true]
    refine ⟨?_, anyIndexContains_iff.mpr ⟨l, hl⟩⟩
    split
    · rename_i bf hbf
      exact hbloom bf hbf id l (mem_entries_cleanup hl).1
    · rfl
  · rw [← hentries, Option.isSome_iff_exists]
    constructor
    · rintro ⟨l, hget⟩
      exact ⟨l, mem_of_get hget⟩
    · rintro ⟨l, hl⟩
      exact Option.isSome_iff_exists.mp (get_isSome hl)
  · exact full_rebuild env _ _ _ _ fun _ h => by cases h

/-- A Bloom filter, and two packs with the blob 5, once as data and once as a tree. -/
def twoPackIndex : MasterIndex :=
  (((MasterIndex.new.initializeBloomFilter sampleEnv.toIndexEnv 10).addPackLocked
    sampleEnv.toIndexEnv 8
    [⟨5, .data, 0, 2, 1⟩] false).1.addPackLocked sampleEnv.toIndexEnv 9 [⟨5, .tree, 0, 2, 1⟩] false).1

/-- One of the two packs is obsolete. -/
theorem cleanup_twoPackIndex : twoPackIndex.entries.length = 2 ∧
    ∀ l, (twoPackIndex.cleanup sampleEnv.toIndexEnv (some {9})).get sampleEnv.toIndexEnv 5 = some l →
      (5, l) ∈ twoPackIndex.entries ∧ l.packId ≠ 9 := by
  have hrun : Run (Step sampleEnv.toIndexEnv) .new _ twoPackIndex :=
    .snoc (.snoc (.snoc .nil (.initializeBloomFilter 10)) (.addPack 8 [⟨5, .data, 0, 2, 1⟩] false))
      (.addPack 9 [⟨5, .tree, 0, 2, 1⟩] false)
  have hmi : twoPackIndex.Prefiltered := hrun.invariant (fun _ _ _ h hstep => h.step hstep) .new
  obtain ⟨-, -, hget, -⟩ := cleanup_spec sampleEnv.toIndexEnv twoPackIndex (some {9}) hmi.bloom
  refine ⟨by decide, fun l hl => ?_⟩
  obtain ⟨hmem, hobs⟩ := hget 5 l hl
  exact ⟨hmem, by simpa [isObsolete] using hobs⟩

end MasterIndex

end Mapache
