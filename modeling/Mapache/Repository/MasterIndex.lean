import Mapache.Lib.ModifyFirst
import Mapache.Repository.IndexFile

/-!
# The master index

`MasterIndex` of `repository/index.rs`: the list of indices, searched from the last to the first,
with a Bloom filter in front and the set of blobs that are on their way into a pack. `add_pack` is
split at the point where the source releases its lock: `addPackLocked` is the locked section, and
what it returns is the index that is to be written.

The functions are described by `MasterIndex.entries`, the entries of all indices: lookups answer
with an entry and find one when there is one (`mem_of_get`, `get_isSome`), `cleanup` keeps an entry
for every blob it had outside the obsolete packs and invents none (`mem_entries_cleanup`,
`cleanup_complete`).
-/

set_option autoImplicit false

namespace Mapache

open Lib

/-- A collection of indices. `nextInstance` is the counter behind the instance IDs. -/
structure MasterIndex where
  indices : List Index
  bloomFilter : Option BloomFilter
  pendingBlobs : Finset ID
  autoSave : Bool
  nextInstance : Nat

namespace MasterIndex

/-- `MasterIndex::new`. -/
def new : MasterIndex := ⟨[], none, ∅, true, 1⟩

/-- The entries of all indices, in the order of `for_each_id`. -/
def entries (mi : MasterIndex) : List (ID × BlobLocator) := mi.indices.flatMap Index.iterIds

/-- The part of `contains` under the lock of the indices. -/
def indexContains (env : IndexEnv) (mi : MasterIndex) (id : ID) : Bool :=
  (match mi.bloomFilter with
    | some bf => bf.contains id
    | none => true) && mi.indices.reverse.any fun ix => ix.contains env id

/-- `MasterIndex::contains`. -/
def contains (env : IndexEnv) (mi : MasterIndex) (id : ID) : Bool :=
  decide (id ∈ mi.pendingBlobs) || mi.indexContains env id

/-- `MasterIndex::get`. -/
def get (env : IndexEnv) (mi : MasterIndex) (id : ID) : Option BlobLocator :=
  mi.indices.reverse.findSome? fun ix => ix.get env id

/-- `MasterIndex::get_data`. -/
def getData (env : IndexEnv) (mi : MasterIndex) (id : ID) : Option BlobLocator :=
  mi.indices.reverse.findSome? fun ix => ix.getData env id

/-- `MasterIndex::get_tree`. -/
def getTree (env : IndexEnv) (mi : MasterIndex) (id : ID) : Option BlobLocator :=
  mi.indices.reverse.findSome? fun ix => ix.getTree env id

/-- `MasterIndex::num_blobs`. -/
def numBlobs (mi : MasterIndex) : Nat := (mi.indices.map Index.numBlobs).sum

/-- `MasterIndex::ids`. -/
def ids (mi : MasterIndex) : Finset ID :=
  (mi.indices.filterMap fun ix => if ix.isPending then none else ix.id).toFinset

/-- `MasterIndex::add_index`. -/
def addIndex (mi : MasterIndex) (ix : Index) : MasterIndex :=
  { mi with
    bloomFilter := mi.bloomFilter.map fun bf => bf.insertAll (ix.iterIds.map Prod.fst)
    indices := mi.indices ++ [ix] }

/-- `MasterIndex::initialize_bloom_filter`. -/
def initializeBloomFilter (env : IndexEnv) (mi : MasterIndex) (totalBlobs : Nat) : MasterIndex :=
  { mi with
    bloomFilter :=
      some ((BloomFilter.new (env.bloomShape totalBlobs)).insertAll (mi.entries.map Prod.fst)) }

/-- The second check of `add_pending_blob`, which does not ask the Bloom filter. -/
def anyIndexContains (env : IndexEnv) (mi : MasterIndex) (id : ID) : Bool :=
  mi.indices.reverse.any fun ix => ix.contains env id

/-- The last step of `add_pending_blob`. -/
def insertPending (mi : MasterIndex) (id : ID) : MasterIndex :=
  { mi with pendingBlobs := insert id mi.pendingBlobs }

/-! ## Adding a pack -/

/-- The indices with one that is pending. -/
def withPending (mi : MasterIndex) : MasterIndex :=
  if mi.indices.any Index.isPending then mi
  else { mi with
    indices := mi.indices ++ [.new mi.nextInstance], nextInstance := mi.nextInstance + 1 }

/-- What `add_pack` does to the pending index, and whether the index is to be written. -/
def fillPending (env : IndexEnv) (autoSave timedOut : Bool) (packId : ID)
    (ds : List PackedBlobDescriptor) (ix : Index) : Index × Bool :=
  let filled := ix.addPack packId ds
  if autoSave && (filled.isFull env || timedOut) then (filled.finalize, true)
  else if filled.isFull env then (filled.finalize, false)
  else (filled, false)

/-- The locked section of `MasterIndex::add_pack`, with the index to persist. `timedOut` is the
answer of the clock. -/
def addPackLocked (env : IndexEnv) (mi : MasterIndex) (packId : ID)
    (ds : List PackedBlobDescriptor) (timedOut : Bool) : MasterIndex × Option Index :=
  let mi' := { mi.withPending with
    pendingBlobs := mi.pendingBlobs \ (ds.map PackedBlobDescriptor.id).toFinset
    bloomFilter := mi.bloomFilter.map fun (bf : BloomFilter) =>
      bf.insertAll (ds.map PackedBlobDescriptor.id) }
  let fill := fillPending env mi.autoSave timedOut packId ds
  ({ mi' with indices := modifyFirst Index.isPending (fun ix => (fill ix).1) mi'.indices },
    (mi'.indices.find? Index.isPending).bind fun ix =>
      if (fill ix).2 then some (fill ix).1 else none)

/-! ## Writing -/

/-- The test of `MasterIndex::persist`. -/
def needsPersist (ix : Index) : Bool := !ix.isPersisted && !ix.isEmpty

/-- The first section of `MasterIndex::persist`: finalize what is to be written. -/
def finalizeAll (mi : MasterIndex) : MasterIndex :=
  { mi with indices := mi.indices.map fun ix => if needsPersist ix then ix.finalize else ix }

/-- The indices that `MasterIndex::persist` writes. -/
def toPersist (mi : MasterIndex) : List Index :=
  (mi.indices.filter needsPersist).map Index.finalize

/-- The last section of `persist` and of `add_pack`: record the file of an index. -/
def setPersisted (mi : MasterIndex) (instanceId : Nat) (fid : ID) : MasterIndex :=
  { mi with
    indices := modifyFirst (fun ix => ix.instanceId = instanceId)
      (fun ix => ix.setStatus (.persisted fid)) mi.indices }

/-! ## Merging -/

/-- The pack is to be left out. -/
def isObsolete (obsolete : Option (Finset ID)) (packId : ID) : Bool :=
  match obsolete with
  | none => false
  | some s => decide (packId ∈ s)

/-- The descriptor of an entry. -/
def descriptorOf (e : ID × BlobLocator) : PackedBlobDescriptor :=
  ⟨e.1, e.2.blobType, e.2.offset, e.2.length, e.2.rawLength⟩

/-- `Index::get_pack_descriptors`. -/
def getPackDescriptors (obsolete : Option (Finset ID)) (ix : Index) :
    Table ID (List PackedBlobDescriptor) :=
  ix.iterIds.foldl (fun acc e =>
    if isObsolete obsolete e.2.packId then acc
    else acc.insert e.2.packId ((acc.lookup e.2.packId).getD [] ++ [descriptorOf e])) ∅

/-- The descriptors of the packs met so far, by pack and blob. -/
abbrev PackTable := Table ID (Table ID PackedBlobDescriptor)

/-- One turn of the fold of `merge_index`, for one pack of one index. -/
def mergePack (acc : PackTable) (e : ID × List PackedBlobDescriptor) : PackTable :=
  acc.insert e.1 (e.2.foldl (fun m d => m.insert d.id d) ((acc.lookup e.1).getD ∅))

/-- The fold of `merge_index` over the indices in the order of their instance IDs. -/
def allPackDescriptors (obsolete : Option (Finset ID)) (indices : List Index) : PackTable :=
  (sortByKey Index.instanceId indices).foldl
    (fun acc ix => (Table.toList (getPackDescriptors obsolete ix)).foldl mergePack acc) ∅

/-- The rebuilding loop of `merge_index`: the current index, the finished ones, the next instance.
-/
def rebuild (env : IndexEnv) : List (ID × Table ID PackedBlobDescriptor) → Index → List Index → Nat →
    List Index × Nat
  | [], current, done, next =>
    (if current.isEmpty then done else done ++ [current.setStatus .pending], next)
  | (packId, m) :: rest, current, done, next =>
    let ds := sortByKey PackedBlobDescriptor.offset ((Table.toList m).map Prod.snd)
    let current := current.addPack packId ds
    if current.isFull env then
      rebuild env rest (.new next) (done ++ [current.finalize]) (next + 1)
    else rebuild env rest current done next

/-- `MasterIndex::cleanup`. -/
def cleanup (env : IndexEnv) (mi : MasterIndex) (obsolete : Option (Finset ID)) : MasterIndex :=
  let packs := sortByKey Prod.fst (Table.toList (allPackDescriptors obsolete mi.indices))
  let rebuilt := rebuild env packs (.new mi.nextInstance) [] (mi.nextInstance + 1)
  { mi with indices := rebuilt.1, nextInstance := rebuilt.2 }

/-! ## Lookups -/

section Lookup

variable {env : IndexEnv} {mi : MasterIndex} {id : ID} {l : BlobLocator}

theorem mem_entries {e : ID × BlobLocator} :
    e ∈ mi.entries ↔ ∃ ix ∈ mi.indices, e ∈ ix.iterIds := by
  rw [entries, List.mem_flatMap]

/-- A search through the indices answers with the answer of one of them. -/
theorem exists_of_findSome {f : Index → Option BlobLocator}
    (h : mi.indices.reverse.findSome? f = some l) : ∃ ix ∈ mi.indices, f ix = some l := by
  obtain ⟨ix, hix, hf⟩ := List.exists_of_findSome?_eq_some h
  exact ⟨ix, List.mem_reverse.mp hix, hf⟩

/-- A search through the indices succeeds when it does in one of them. -/
theorem findSome_isSome {f : Index → Option BlobLocator} {ix : Index} (hix : ix ∈ mi.indices)
    (h : (f ix).isSome = true) : (mi.indices.reverse.findSome? f).isSome = true := by
  rw [List.findSome?_isSome_iff]
  exact ⟨ix, List.mem_reverse.mpr hix, h⟩

theorem mem_of_get (h : mi.get env id = some l) : (id, l) ∈ mi.entries := by
  obtain ⟨ix, hix, hget⟩ := exists_of_findSome h
  exact mem_entries.mpr ⟨ix, hix, Index.mem_of_get hget⟩

theorem get_isSome (h : (id, l) ∈ mi.entries) : (mi.get env id).isSome = true := by
  obtain ⟨ix, hix, hmem⟩ := mem_entries.mp h
  exact findSome_isSome hix (Index.get_isSome hmem)

theorem mem_of_getData (h : mi.getData env id = some l) :
    (id, l) ∈ mi.entries ∧ l.blobType = .data := by
  obtain ⟨ix, hix, hget⟩ := exists_of_findSome h
  obtain ⟨hmem, ht⟩ := Index.mem_of_getData hget
  exact ⟨mem_entries.mpr ⟨ix, hix, hmem⟩, ht⟩

theorem getData_isSome (h : (id, l) ∈ mi.entries) (ht : l.blobType = .data) :
    (mi.getData env id).isSome = true := by
  obtain ⟨ix, hix, hmem⟩ := mem_entries.mp h
  exact findSome_isSome hix (Index.getData_isSome hmem ht)

theorem mem_of_getTree (h : mi.getTree env id = some l) :
    (id, l) ∈ mi.entries ∧ l.blobType = .tree := by
  obtain ⟨ix, hix, hget⟩ := exists_of_findSome h
  obtain ⟨hmem, ht⟩ := Index.mem_of_getTree hget
  exact ⟨mem_entries.mpr ⟨ix, hix, hmem⟩, ht⟩

theorem getTree_isSome (h : (id, l) ∈ mi.entries) (ht : l.blobType = .tree) :
    (mi.getTree env id).isSome = true := by
  obtain ⟨ix, hix, hmem⟩ := mem_entries.mp h
  exact findSome_isSome hix (Index.getTree_isSome hmem ht)

theorem anyIndexContains_iff :
    mi.anyIndexContains env id = true ↔ ∃ l, (id, l) ∈ mi.entries := by
  simp only [anyIndexContains, List.any_eq_true, List.mem_reverse, Index.contains_iff, mem_entries]
  constructor
  · rintro ⟨ix, hix, l, hl⟩
    exact ⟨l, ix, hix, hl⟩
  · rintro ⟨l, ix, hix, hl⟩
    exact ⟨ix, hix, l, hl⟩

theorem exists_mem_of_indexContains (h : mi.indexContains env id = true) :
    ∃ l, (id, l) ∈ mi.entries := by
  rw [indexContains, Bool.and_eq_true] at h
  exact anyIndexContains_iff.mp h.2

end Lookup

/-! ## Well-formedness -/

/-- What every operation keeps: pending indices accept entries, instance IDs are distinct and drawn,
and the Bloom filter knows every blob. -/
structure WF (mi : MasterIndex) : Prop where
  isMutable : ∀ ix ∈ mi.indices, ix.isPending = true → ix.IsMutable
  nodup : (mi.indices.map Index.instanceId).Nodup
  drawn : ∀ ix ∈ mi.indices, ix.instanceId < mi.nextInstance
  bloom : ∀ bf, mi.bloomFilter = some bf → ∀ id l, (id, l) ∈ mi.entries → bf.contains id = true

theorem WF.indexContains_iff {env : IndexEnv} {mi : MasterIndex} {id : ID} (hwf : mi.WF) :
    mi.indexContains env id = true ↔ ∃ l, (id, l) ∈ mi.entries := by
  constructor
  · exact exists_mem_of_indexContains
  · rintro ⟨l, hl⟩
    rw [indexContains, Bool.and_eq_true]
    refine ⟨?_, anyIndexContains_iff.mpr ⟨l, hl⟩⟩
    split
    · exact hwf.bloom _ ‹_› id l hl
    · rfl

/-- Two indices with one instance ID are one. -/
theorem WF.eq_of_instanceId {mi : MasterIndex} (hwf : mi.WF) {ix ix' : Index}
    (hix : ix ∈ mi.indices) (hix' : ix' ∈ mi.indices) (h : ix.instanceId = ix'.instanceId) :
    ix = ix' :=
  List.inj_on_of_nodup_map hwf.nodup hix hix' h

theorem WF.new : MasterIndex.new.WF := by
  refine ⟨?_, List.nodup_nil, ?_, ?_⟩
  · intro ix hix
    cases hix
  · intro ix hix
    cases hix
  · intro bf hbf
    cases hbf

/-! ## `add_pack` -/

section AddPack

variable {env : IndexEnv} {mi : MasterIndex} {packId id : ID} {ds : List PackedBlobDescriptor}
  {timedOut : Bool} {l : BlobLocator}

/-- The index that `withPending` may add is empty. -/
theorem mem_withPending {ix : Index} (h : ix ∈ mi.withPending.indices) :
    ix ∈ mi.indices ∨ ix = .new mi.nextInstance := by
  unfold withPending at h
  split at h
  · exact Or.inl h
  · rcases List.mem_append.mp h with hold | hnew
    · exact Or.inl hold
    · exact Or.inr (List.mem_singleton.mp hnew)

theorem mem_withPending_of_mem {ix : Index} (h : ix ∈ mi.indices) : ix ∈ mi.withPending.indices := by
  unfold withPending
  split
  · exact h
  · exact List.mem_append_left _ h

theorem exists_pending_withPending (mi : MasterIndex) :
    ∃ ix, mi.withPending.indices.find? Index.isPending = some ix := by
  rw [← Option.isSome_iff_exists, List.find?_isSome]
  by_cases hany : mi.indices.any Index.isPending = true
  · obtain ⟨ix, hix, hp⟩ := List.any_eq_true.mp hany
    exact ⟨ix, mem_withPending_of_mem hix, hp⟩
  · refine ⟨.new mi.nextInstance, ?_, rfl⟩
    unfold withPending
    rw [if_neg hany]
    exact List.mem_append_right _ (List.mem_singleton_self _)

theorem nextInstance_le_withPending : mi.nextInstance ≤ mi.withPending.nextInstance := by
  unfold withPending
  split
  · exact le_rfl
  · exact Nat.le_succ _

/-- An index that `withPending` adds accepts entries. -/
theorem isMutable_withPending (h : ∀ ix ∈ mi.indices, ix.isPending = true → ix.IsMutable) :
    ∀ ix ∈ mi.withPending.indices, ix.isPending = true → ix.IsMutable := by
  intro ix hix hp
  rcases mem_withPending hix with hold | rfl
  · exact h ix hold hp
  · exact ⟨trivial, trivial⟩

theorem WF.withPending (hwf : mi.WF) :
    (mi.withPending.indices.map Index.instanceId).Nodup ∧
      ∀ ix ∈ mi.withPending.indices, ix.instanceId < mi.withPending.nextInstance := by
  unfold MasterIndex.withPending
  split
  · exact ⟨hwf.nodup, hwf.drawn⟩
  · refine ⟨?_, ?_⟩
    · rw [List.map_append, List.nodup_append]
      refine ⟨hwf.nodup, List.nodup_singleton _, ?_⟩
      rintro a ha b hb rfl
      obtain ⟨ix, hix, hinst⟩ := List.mem_map.mp ha
      have hlt := hwf.drawn ix hix
      have hnew : a = mi.nextInstance := List.mem_singleton.mp hb
      omega
    · intro ix hix
      rcases List.mem_append.mp hix with hold | hnew
      · exact Nat.lt_succ_of_lt (hwf.drawn ix hold)
      · rw [List.mem_singleton.mp hnew]
        exact Nat.lt_succ_self _

section Fill

variable {autoSave : Bool} {ix : Index}

@[simp] theorem fillPending_iterIds :
    (fillPending env autoSave timedOut packId ds ix).1.iterIds = (ix.addPack packId ds).iterIds := by
  unfold fillPending
  dsimp only
  split
  · rfl
  · split <;> rfl

@[simp] theorem fillPending_instanceId :
    (fillPending env autoSave timedOut packId ds ix).1.instanceId = ix.instanceId := by
  unfold fillPending
  dsimp only
  split
  · exact Index.addPack_instanceId packId ds
  · split <;> exact Index.addPack_instanceId packId ds

/-- A filled index is not persisted, and it is finalized when it is to be written. -/
theorem fillPending_status (hp : ix.isPending = true) :
    ((fillPending env autoSave timedOut packId ds ix).1.status = .finalized ∨
        ((fillPending env autoSave timedOut packId ds ix).1.status = .pending ∧
          (fillPending env autoSave timedOut packId ds ix).2 = false)) ∧
      (ix.IsMutable → (fillPending env autoSave timedOut packId ds ix).1.IsMutable) := by
  have hstatus : ix.status = .pending := by simpa [Index.isPending] using hp
  unfold fillPending
  dsimp only
  split
  · exact ⟨Or.inl rfl, fun h => h.addPack packId ds⟩
  · split
    · exact ⟨Or.inl rfl, fun h => h.addPack packId ds⟩
    · refine ⟨Or.inr ⟨?_, rfl⟩, fun h => h.addPack packId ds⟩
      rw [Index.addPack_status]
      exact hstatus

theorem fillPending_isPersisted (hp : ix.isPending = true) :
    (fillPending env autoSave timedOut packId ds ix).1.isPersisted = false := by
  have hstatus : (fillPending env autoSave timedOut packId ds ix).1.status = .finalized ∨
      (fillPending env autoSave timedOut packId ds ix).1.status = .pending :=
    (fillPending_status hp).1.imp_right And.left
  rcases hstatus with hfin | hpending
  · simp only [Index.isPersisted, hfin]
  · simp only [Index.isPersisted, hpending]

end Fill

/-- The indices after `add_pack`: those there were, the pending one filled. -/
theorem mem_indices_addPackLocked {ix : Index}
    (h : ix ∈ (mi.addPackLocked env packId ds timedOut).1.indices) :
    (ix ∈ mi.indices ∨ ix = .new mi.nextInstance) ∨
      ∃ ix₀, (ix₀ ∈ mi.indices ∨ ix₀ = .new mi.nextInstance) ∧ ix₀.isPending = true ∧
        ix = (fillPending env mi.autoSave timedOut packId ds ix₀).1 := by
  rcases mem_modifyFirst_sound h with hold | ⟨ix₀, hix₀, hp, rfl⟩
  · exact Or.inl (mem_withPending hold)
  · exact Or.inr ⟨ix₀, mem_withPending hix₀, hp, rfl⟩

/-- An entry after `add_pack` is an old one or that of a descriptor. -/
theorem mem_entries_addPackLocked
    (h : (id, l) ∈ (mi.addPackLocked env packId ds timedOut).1.entries) :
    (id, l) ∈ mi.entries ∨
      ∃ d ∈ ds, d.blobType ≠ .padding ∧ id = d.id ∧ l = d.locator packId := by
  have hbase : ∀ ix₀, ix₀ ∈ mi.indices ∨ ix₀ = .new mi.nextInstance → (id, l) ∈ ix₀.iterIds →
      (id, l) ∈ mi.entries := by
    rintro ix₀ (hold | rfl) hmem
    · exact mem_entries.mpr ⟨ix₀, hold, hmem⟩
    · cases hmem
  obtain ⟨ix, hix, hmem⟩ := mem_entries.mp h
  rcases mem_indices_addPackLocked hix with hold | ⟨ix₀, hix₀, _, rfl⟩
  · exact Or.inl (hbase ix hold hmem)
  · rw [fillPending_iterIds] at hmem
    rcases Index.mem_addPack hmem with hold | hnew
    · exact Or.inl (hbase ix₀ hix₀ hold)
    · exact Or.inr hnew

/-- A blob keeps an entry of its type through `add_pack`. -/
theorem addPackLocked_complete (env : IndexEnv) (packId : ID) (ds : List PackedBlobDescriptor)
    (timedOut : Bool) (h : (id, l) ∈ mi.entries) :
    ∃ l', (id, l') ∈ (mi.addPackLocked env packId ds timedOut).1.entries ∧
      l'.blobType = l.blobType := by
  obtain ⟨ix, hix, hmem⟩ := mem_entries.mp h
  rcases mem_modifyFirst_complete (p := Index.isPending)
    (f := fun ix => (fillPending env mi.autoSave timedOut packId ds ix).1)
    (mem_withPending_of_mem hix) with hkeep | ⟨_, hfill⟩
  · exact ⟨l, mem_entries.mpr ⟨ix, hkeep, hmem⟩, rfl⟩
  · obtain ⟨l', hl', ht⟩ := Index.addPack_complete packId ds hmem
    exact ⟨l', mem_entries.mpr ⟨_, hfill, by rw [fillPending_iterIds]; exact hl'⟩, ht⟩

/-- Every descriptor has an entry after `add_pack`. -/
theorem addPackLocked_self (h : ∀ ix ∈ mi.indices, ix.isPending = true → ix.IsMutable)
    (env : IndexEnv) (packId : ID) (timedOut : Bool) {d : PackedBlobDescriptor} (hd : d ∈ ds)
    (hne : d.blobType ≠ .padding) :
    ∃ l', (d.id, l') ∈ (mi.addPackLocked env packId ds timedOut).1.entries ∧
      l'.blobType = d.blobType := by
  obtain ⟨ix, hfind⟩ := exists_pending_withPending mi
  have hmut := isMutable_withPending h ix (List.mem_of_find?_eq_some hfind) (List.find?_some hfind)
  obtain ⟨l', hl', ht⟩ := Index.mem_addPack_self packId hmut hd hne
  refine ⟨l', mem_entries.mpr ⟨_, mem_modifyFirst_find hfind, ?_⟩, ht⟩
  rw [fillPending_iterIds]
  exact hl'

theorem isMutable_addPackLocked (h : ∀ ix ∈ mi.indices, ix.isPending = true → ix.IsMutable) :
    ∀ ix ∈ (mi.addPackLocked env packId ds timedOut).1.indices,
      ix.isPending = true → ix.IsMutable := by
  have hmut := isMutable_withPending h
  intro ix hix hp
  rcases mem_modifyFirst_sound hix with hold | ⟨ix₀, hix₀, hp₀, rfl⟩
  · exact hmut ix hold hp
  · exact (fillPending_status hp₀).2 (hmut ix₀ hix₀ hp₀)

theorem bloom_addPackLocked
    (h : ∀ bf, mi.bloomFilter = some bf → ∀ id l, (id, l) ∈ mi.entries → bf.contains id = true) :
    ∀ bf, (mi.addPackLocked env packId ds timedOut).1.bloomFilter = some bf →
      ∀ id l, (id, l) ∈ (mi.addPackLocked env packId ds timedOut).1.entries →
        bf.contains id = true := by
  intro bf hbf id l hmem
  simp only [MasterIndex.addPackLocked, Option.map_eq_some_iff] at hbf
  obtain ⟨bf₀, hbf₀, rfl⟩ := hbf
  rcases mem_entries_addPackLocked hmem with hold | ⟨d, hd, _, rfl, _⟩
  · exact BloomFilter.contains_insertAll_of_contains _ (h bf₀ hbf₀ id l hold)
  · exact BloomFilter.contains_insertAll (List.mem_map_of_mem hd)

theorem WF.addPackLocked (hwf : mi.WF) (env : IndexEnv) (packId : ID)
    (ds : List PackedBlobDescriptor) (timedOut : Bool) :
    (mi.addPackLocked env packId ds timedOut).1.WF := by
  obtain ⟨hnodup, hdrawn⟩ := hwf.withPending
  refine ⟨isMutable_addPackLocked hwf.isMutable, ?_, ?_, bloom_addPackLocked hwf.bloom⟩
  · simp only [MasterIndex.addPackLocked]
    rw [map_modifyFirst fun ix => fillPending_instanceId]
    exact hnodup
  · intro ix hix
    rcases mem_modifyFirst_sound hix with hold | ⟨ix₀, hix₀, _, rfl⟩
    · exact hdrawn ix hold
    · rw [fillPending_instanceId]
      exact hdrawn ix₀ hix₀

/-- The index that `add_pack` hands out for writing is finalized and is the one in the list. -/
theorem mem_of_addPackLocked_snd {ix : Index}
    (h : (mi.addPackLocked env packId ds timedOut).2 = some ix) :
    ix ∈ (mi.addPackLocked env packId ds timedOut).1.indices ∧ ix.status = .finalized := by
  simp only [addPackLocked, Option.bind_eq_some_iff] at h
  obtain ⟨ix₀, hfind, hret⟩ := h
  split at hret
  · rename_i hwrite
    cases hret
    refine ⟨mem_modifyFirst_find hfind, ?_⟩
    rcases (fillPending_status (List.find?_some hfind)).1 with hfin | ⟨_, hno⟩
    · exact hfin
    · rw [hwrite] at hno
      cases hno
  · cases hret

end AddPack

/-! ## Writing -/

section Persist

variable {env : IndexEnv} {mi : MasterIndex} {packId id : ID} {l : BlobLocator} {ix : Index}

/-- The copy `ix` of an index is what the list still has under its instance ID, up to the status,
and no pack is added there any more. -/
def Frozen (mi : MasterIndex) (ix : Index) : Prop :=
  ix.instanceId < mi.nextInstance ∧
    ∀ ix' ∈ mi.indices, ix'.instanceId = ix.instanceId →
      ix'.isPending = false ∧ ix'.iterIds = ix.iterIds

/-- What `add_pack` hands out for writing is frozen. -/
theorem WF.frozen_addPackLocked {ds : List PackedBlobDescriptor} {timedOut : Bool} (hwf : mi.WF)
    (h : (mi.addPackLocked env packId ds timedOut).2 = some ix) :
    (mi.addPackLocked env packId ds timedOut).1.Frozen ix := by
  obtain ⟨hmem, hfin⟩ := mem_of_addPackLocked_snd h
  have hwf' := hwf.addPackLocked env packId ds timedOut
  refine ⟨hwf'.drawn ix hmem, ?_⟩
  intro ix' hix' hinst
  have heq := hwf'.eq_of_instanceId hix' hmem hinst
  subst heq
  exact ⟨by simp [Index.isPending, hfin], rfl⟩

/-- A frozen copy stays frozen when another pack is added: only a pending index is filled. -/
theorem Frozen.addPackLocked (hf : mi.Frozen ix) (env : IndexEnv) (packId : ID)
    (ds : List PackedBlobDescriptor) (timedOut : Bool) :
    (mi.addPackLocked env packId ds timedOut).1.Frozen ix := by
  obtain ⟨hlt, hsame⟩ := hf
  have hbase : ∀ ix₀, ix₀ ∈ mi.indices ∨ ix₀ = .new mi.nextInstance →
      ix₀.instanceId = ix.instanceId → ix₀.isPending = false ∧ ix₀.iterIds = ix.iterIds := by
    rintro ix₀ (hold | rfl) hinst
    · exact hsame ix₀ hold hinst
    · have hnew : mi.nextInstance = ix.instanceId := hinst
      omega
  refine ⟨lt_of_lt_of_le hlt (nextInstance_le_withPending), ?_⟩
  intro ix' hix' hinst
  rcases mem_indices_addPackLocked hix' with hold | ⟨ix₀, hix₀, hp, rfl⟩
  · exact hbase ix' hold hinst
  · rw [fillPending_instanceId] at hinst
    rw [(hbase ix₀ hix₀ hinst).1] at hp
    cases hp

theorem mem_indices_setPersisted {n : Nat} {fid : ID} (h : ix ∈ (mi.setPersisted n fid).indices) :
    ix ∈ mi.indices ∨ ∃ ix₀ ∈ mi.indices,
      ix₀.instanceId = n ∧ ix = ix₀.setStatus (.persisted fid) := by
  rcases mem_modifyFirst_sound h with hold | ⟨ix₀, hix₀, hinst, rfl⟩
  · exact Or.inl hold
  · exact Or.inr ⟨ix₀, hix₀, by simpa using hinst, rfl⟩

@[simp] theorem entries_setPersisted (mi : MasterIndex) (n : Nat) (fid : ID) :
    (mi.setPersisted n fid).entries = mi.entries := by
  have hmap := map_modifyFirst (p := fun ix : Index => decide (ix.instanceId = n))
    (f := fun ix => ix.setStatus (.persisted fid)) (g := Index.iterIds) (fun _ => rfl) mi.indices
  simp only [entries, List.flatMap_def]
  exact congrArg List.flatten hmap

theorem WF.setPersisted (hwf : mi.WF) (n : Nat) (fid : ID) : (mi.setPersisted n fid).WF := by
  refine ⟨?_, ?_, ?_, ?_⟩
  · intro ix hix hp
    rcases mem_indices_setPersisted hix with hold | ⟨ix₀, _, _, rfl⟩
    · exact hwf.isMutable ix hold hp
    · simp [Index.isPending, Index.setStatus] at hp
  · have hmap := map_modifyFirst (p := fun ix : Index => decide (ix.instanceId = n))
      (f := fun ix => ix.setStatus (.persisted fid)) (g := Index.instanceId) (fun _ => rfl) mi.indices
    exact hmap ▸ hwf.nodup
  · intro ix hix
    rcases mem_indices_setPersisted hix with hold | ⟨ix₀, hix₀, _, rfl⟩
    · exact hwf.drawn ix hold
    · exact hwf.drawn ix₀ hix₀
  · intro bf hbf id l hmem
    rw [entries_setPersisted] at hmem
    exact hwf.bloom bf hbf id l hmem

/-- The index whose file was recorded is persisted. -/
theorem WF.isPersisted_setPersisted (hwf : mi.WF) {n : Nat} {fid : ID}
    (h : ix ∈ (mi.setPersisted n fid).indices) (hinst : ix.instanceId = n) :
    ix.isPersisted = true := by
  rcases mem_indices_setPersisted h with hold | ⟨ix₀, _, _, rfl⟩
  · obtain ⟨ix₁, hfind⟩ : ∃ ix₁,
      mi.indices.find? (fun ix => decide (ix.instanceId = n)) = some ix₁ := by
      rw [← Option.isSome_iff_exists, List.find?_isSome]
      exact ⟨ix, hold, by simpa using hinst⟩
    have hmod : ix₁.setStatus (.persisted fid) ∈ (mi.setPersisted n fid).indices :=
      mem_modifyFirst_find hfind
    have hinst₁ : ix₁.instanceId = n := by simpa using List.find?_some hfind
    rw [(hwf.setPersisted n fid).eq_of_instanceId h hmod (hinst.trans hinst₁.symm)]
    rfl
  · rfl

theorem Frozen.setPersisted (hf : mi.Frozen ix) (n : Nat) (fid : ID) :
    (mi.setPersisted n fid).Frozen ix := by
  refine ⟨hf.1, ?_⟩
  intro ix' hix' hinst
  rcases mem_indices_setPersisted hix' with hold | ⟨ix₀, hix₀, _, rfl⟩
  · exact hf.2 ix' hold hinst
  · exact ⟨rfl, (hf.2 ix₀ hix₀ hinst).2⟩

theorem mem_indices_finalizeAll (h : ix ∈ mi.finalizeAll.indices) :
    ∃ ix₀ ∈ mi.indices, ix = if needsPersist ix₀ then ix₀.finalize else ix₀ := by
  obtain ⟨ix₀, hix₀, rfl⟩ := List.mem_map.mp h
  exact ⟨ix₀, hix₀, rfl⟩

@[simp] theorem entries_finalizeAll (mi : MasterIndex) : mi.finalizeAll.entries = mi.entries := by
  simp only [entries, finalizeAll, List.flatMap_map]
  congr 1
  funext ix
  split <;> rfl

theorem isMutable_finalizeAll (h : ∀ ix ∈ mi.indices, ix.isPending = true → ix.IsMutable) :
    ∀ ix ∈ mi.finalizeAll.indices, ix.isPending = true → ix.IsMutable := by
  intro ix hix hp
  obtain ⟨ix₀, hix₀, rfl⟩ := mem_indices_finalizeAll hix
  split at hp
  · simp [Index.isPending, Index.finalize, Index.setStatus] at hp
  · rw [if_neg ‹_›]
    exact h ix₀ hix₀ hp

theorem WF.finalizeAll (hwf : mi.WF) : mi.finalizeAll.WF := by
  refine ⟨isMutable_finalizeAll hwf.isMutable, ?_, ?_, ?_⟩
  · have hmap : mi.finalizeAll.indices.map Index.instanceId = mi.indices.map Index.instanceId := by
      simp only [MasterIndex.finalizeAll, List.map_map]
      congr 1
      funext ix
      simp only [Function.comp]
      split <;> rfl
    rw [hmap]
    exact hwf.nodup
  · intro ix hix
    obtain ⟨ix₀, hix₀, rfl⟩ := mem_indices_finalizeAll hix
    split
    · exact hwf.drawn ix₀ hix₀
    · exact hwf.drawn ix₀ hix₀
  · intro bf hbf id l hmem
    rw [entries_finalizeAll] at hmem
    exact hwf.bloom bf hbf id l hmem

theorem Frozen.finalizeAll (hf : mi.Frozen ix) : mi.finalizeAll.Frozen ix := by
  refine ⟨hf.1, ?_⟩
  intro ix' hix' hinst
  obtain ⟨ix₀, hix₀, rfl⟩ := mem_indices_finalizeAll hix'
  by_cases hneeds : needsPersist ix₀ = true
  · rw [if_pos hneeds] at hinst ⊢
    exact ⟨rfl, (hf.2 ix₀ hix₀ hinst).2⟩
  · rw [if_neg hneeds] at hinst ⊢
    exact hf.2 ix₀ hix₀ hinst

/-- What `persist` writes is in the indices. -/
theorem mem_entries_of_toPersist {e : ID × BlobLocator} (h : ix ∈ mi.toPersist) (he : e ∈ ix.iterIds) :
    e ∈ mi.entries := by
  obtain ⟨ix₀, hix₀, rfl⟩ := List.mem_map.mp h
  exact mem_entries.mpr ⟨ix₀, (List.mem_filter.mp hix₀).1, he⟩

/-- What `persist` writes is frozen. -/
theorem WF.frozen_finalizeAll (hwf : mi.WF) (h : ix ∈ mi.toPersist) : mi.finalizeAll.Frozen ix := by
  obtain ⟨ix₀, hix₀, rfl⟩ := List.mem_map.mp h
  rw [List.mem_filter] at hix₀
  refine ⟨hwf.drawn ix₀ hix₀.1, ?_⟩
  intro ix' hix' hinst
  obtain ⟨ix₁, hix₁, rfl⟩ := mem_indices_finalizeAll hix'
  have hinst' : ix₁.instanceId = ix₀.instanceId := by
    split at hinst <;> exact hinst
  have heq := hwf.eq_of_instanceId hix₁ hix₀.1 hinst'
  subst heq
  rw [if_pos hix₀.2]
  exact ⟨rfl, rfl⟩

/-- No index is in a file. -/
def Unsaved (mi : MasterIndex) : Prop := ∀ ix ∈ mi.indices, ix.isPersisted = false

theorem Unsaved.addPackLocked (h : mi.Unsaved) (env : IndexEnv) (packId : ID)
    (ds : List PackedBlobDescriptor) (timedOut : Bool) :
    (mi.addPackLocked env packId ds timedOut).1.Unsaved := by
  intro ix hix
  rcases mem_indices_addPackLocked hix with (hold | rfl) | ⟨ix₀, _, hp, rfl⟩
  · exact h ix hold
  · rfl
  · exact fillPending_isPersisted hp

/-- Of indices that are in no file, `persist` writes every entry. -/
theorem Unsaved.mem_toPersist (h : mi.Unsaved) {e : ID × BlobLocator} (he : e ∈ mi.entries) :
    ∃ ix ∈ mi.toPersist, e ∈ ix.iterIds := by
  obtain ⟨ix, hix, hmem⟩ := mem_entries.mp he
  have hneeds : needsPersist ix = true := by
    rw [needsPersist, h ix hix]
    cases hempty : ix.isEmpty with
    | false => rfl
    | true =>
      rw [Index.iterIds_eq_nil_of_isEmpty hempty] at hmem
      cases hmem
  exact ⟨ix.finalize, List.mem_map_of_mem (List.mem_filter.mpr ⟨hix, hneeds⟩), hmem⟩

end Persist

/-! ## Merging -/

section Cleanup

variable {env : IndexEnv} {mi : MasterIndex} {obsolete : Option (Finset ID)}

/-- The descriptor is listed for the pack. -/
def HasDescriptor (t : Table ID (List PackedBlobDescriptor)) (p : ID) (d : PackedBlobDescriptor) :
    Prop :=
  ∃ ds, t.lookup p = some ds ∧ d ∈ ds

theorem hasDescriptor_foldl (es : List (ID × BlobLocator))
    (acc : Table ID (List PackedBlobDescriptor)) (p : ID) (d : PackedBlobDescriptor) :
    HasDescriptor (es.foldl (fun acc e =>
        if isObsolete obsolete e.2.packId then acc
        else acc.insert e.2.packId ((acc.lookup e.2.packId).getD [] ++ [descriptorOf e])) acc) p d ↔
      HasDescriptor acc p d ∨
        ∃ e ∈ es, e.2.packId = p ∧ isObsolete obsolete p = false ∧ d = descriptorOf e := by
  induction es generalizing acc with
  | nil => simp
  | cons e es ih =>
    rw [List.foldl_cons, ih]
    simp only [List.mem_cons, exists_eq_or_imp]
    rw [← or_assoc]
    refine or_congr_left ?_
    by_cases hobs : isObsolete obsolete e.2.packId = true
    · rw [if_pos hobs]
      constructor
      · exact Or.inl
      · rintro (hold | ⟨rfl, hno, _⟩)
        · exact hold
        · rw [hobs] at hno
          cases hno
    · rw [if_neg hobs]
      rw [Bool.not_eq_true] at hobs
      by_cases hp : p = e.2.packId
      · subst hp
        simp only [HasDescriptor, AList.lookup_insert, Option.some.injEq, exists_eq_left',
          List.mem_append, List.mem_singleton, hobs, true_and]
        refine or_congr_left ?_
        cases hlook : acc.lookup e.2.packId with
        | none => simp
        | some ds => simp
      · simp [HasDescriptor, AList.lookup_insert_ne hp, Ne.symm hp]

/-- `get_pack_descriptors` lists the entries of the index outside the obsolete packs. -/
theorem hasDescriptor_getPackDescriptors {ix : Index} {p : ID} {d : PackedBlobDescriptor} :
    HasDescriptor (getPackDescriptors obsolete ix) p d ↔
      ∃ e ∈ ix.iterIds, e.2.packId = p ∧ isObsolete obsolete p = false ∧ d = descriptorOf e := by
  rw [getPackDescriptors, hasDescriptor_foldl]
  constructor
  · rintro (⟨ds, hnone, _⟩ | h)
    · cases hnone
    · exact h
  · exact Or.inr

/-- Every descriptor of the table sits under its own ID and satisfies `R`. -/
def PackTable.Sound (R : ID → PackedBlobDescriptor → Prop) (t : PackTable) : Prop :=
  ∀ p m k d, t.lookup p = some m → m.lookup k = some d → k = d.id ∧ R p d

/-- The table has a descriptor for the blob in the pack. -/
def PackTable.Has (t : PackTable) (p k : ID) : Prop :=
  ∃ m d, t.lookup p = some m ∧ m.lookup k = some d

theorem lookup_foldl_insert_sound {ds : List PackedBlobDescriptor}
    {m : Table ID PackedBlobDescriptor} {k : ID} {d : PackedBlobDescriptor}
    (h : (ds.foldl (fun m d => m.insert d.id d) m).lookup k = some d) :
    m.lookup k = some d ∨ (d ∈ ds ∧ k = d.id) := by
  induction ds generalizing m with
  | nil => exact Or.inl h
  | cons d' ds ih =>
    rcases ih h with hold | ⟨hmem, hk⟩
    · rw [Table.lookup_insert_eq_ite] at hold
      split at hold
      · cases hold
        exact Or.inr ⟨List.mem_cons_self, ‹_›⟩
      · exact Or.inl hold
    · exact Or.inr ⟨List.mem_cons_of_mem _ hmem, hk⟩

theorem lookup_foldl_insert_complete {ds : List PackedBlobDescriptor}
    {m : Table ID PackedBlobDescriptor} {k : ID}
    (h : (∃ d, m.lookup k = some d) ∨ ∃ d ∈ ds, k = d.id) :
    ∃ d, (ds.foldl (fun m d => m.insert d.id d) m).lookup k = some d := by
  induction ds generalizing m with
  | nil =>
    rcases h with hold | ⟨d, hd, _⟩
    · exact hold
    · cases hd
  | cons d' ds ih =>
    refine ih ?_
    rw [Table.lookup_insert_eq_ite]
    by_cases hk : k = d'.id
    · exact Or.inl ⟨d', if_pos hk⟩
    · rw [if_neg hk]
      rcases h with hold | ⟨d, hd, heq⟩
      · exact Or.inl hold
      · rcases List.mem_cons.mp hd with rfl | htail
        · exact absurd heq hk
        · exact Or.inr ⟨d, htail, heq⟩

theorem PackTable.Sound.mergePack {R : ID → PackedBlobDescriptor → Prop} {t : PackTable}
    (ht : t.Sound R) {e : ID × List PackedBlobDescriptor} (he : ∀ d ∈ e.2, R e.1 d) :
    (MasterIndex.mergePack t e).Sound R := by
  intro p m k d hm hd
  rw [MasterIndex.mergePack, Table.lookup_insert_eq_ite] at hm
  split at hm
  · rename_i hp
    subst hp
    cases hm
    rcases lookup_foldl_insert_sound hd with hold | ⟨hmem, hk⟩
    · cases hlook : t.lookup e.1 with
      | none =>
        rw [hlook] at hold
        cases hold
      | some m₀ =>
        rw [hlook] at hold
        exact ht e.1 m₀ k d hlook hold
    · exact ⟨hk, he d hmem⟩
  · exact ht p m k d hm hd

theorem PackTable.Has.mergePack {t : PackTable} {p k : ID} {e : ID × List PackedBlobDescriptor}
    (h : t.Has p k ∨ (p = e.1 ∧ ∃ d ∈ e.2, k = d.id)) : (MasterIndex.mergePack t e).Has p k := by
  unfold PackTable.Has MasterIndex.mergePack
  by_cases hp : p = e.1
  · subst hp
    have hin : (∃ d, ((t.lookup e.1).getD ∅).lookup k = some d) ∨ ∃ d ∈ e.2, k = d.id := by
      rcases h with ⟨m, d, hm, hd⟩ | ⟨_, hnew⟩
      · exact Or.inl ⟨d, by rw [hm]; exact hd⟩
      · exact Or.inr hnew
    obtain ⟨d, hd⟩ := lookup_foldl_insert_complete hin
    exact ⟨_, d, AList.lookup_insert _, hd⟩
  · rcases h with ⟨m, d, hm, hd⟩ | ⟨heq, _⟩
    · exact ⟨m, d, by rw [AList.lookup_insert_ne hp]; exact hm, hd⟩
    · exact absurd heq hp

theorem PackTable.Sound.foldl {R : ID → PackedBlobDescriptor → Prop}
    {es : List (ID × List PackedBlobDescriptor)} (hes : ∀ e ∈ es, ∀ d ∈ e.2, R e.1 d) {t : PackTable}
    (ht : t.Sound R) : PackTable.Sound R (es.foldl MasterIndex.mergePack t) := by
  induction es generalizing t with
  | nil => exact ht
  | cons e es ih =>
    exact ih (fun e' he' => hes e' (List.mem_cons_of_mem _ he'))
      (ht.mergePack (hes e List.mem_cons_self))

theorem PackTable.Has.foldl {p k : ID} {es : List (ID × List PackedBlobDescriptor)} {t : PackTable}
    (h : t.Has p k ∨ ∃ e ∈ es, p = e.1 ∧ ∃ d ∈ e.2, k = d.id) :
    PackTable.Has (es.foldl MasterIndex.mergePack t) p k := by
  induction es generalizing t with
  | nil =>
    rcases h with hold | ⟨e, he, _⟩
    · exact hold
    · cases he
  | cons e es ih =>
    refine ih ?_
    rcases h with hold | ⟨e', he', hnew⟩
    · exact Or.inl (PackTable.Has.mergePack (Or.inl hold))
    · rcases List.mem_cons.mp he' with rfl | htail
      · exact Or.inl (PackTable.Has.mergePack (Or.inr hnew))
      · exact Or.inr ⟨e', htail, hnew⟩

/-- The descriptor is that of an entry of the indices outside the obsolete packs. -/
def IsKept (obsolete : Option (Finset ID)) (mi : MasterIndex) (p : ID) (d : PackedBlobDescriptor) :
    Prop :=
  (d.id, d.locator p) ∈ mi.entries ∧ isObsolete obsolete p = false

/-- Everything the merge collects is a kept entry. -/
theorem sound_allPackDescriptors :
    PackTable.Sound (IsKept obsolete mi) (allPackDescriptors obsolete mi.indices) := by
  have hfold : ∀ (ixs : List Index), (∀ ix ∈ ixs, ix ∈ mi.indices) → ∀ t : PackTable,
      t.Sound (IsKept obsolete mi) → PackTable.Sound (IsKept obsolete mi)
        (ixs.foldl (fun acc ix => (Table.toList (getPackDescriptors obsolete ix)).foldl
          MasterIndex.mergePack acc) t) := by
    intro ixs
    induction ixs with
    | nil => exact fun _ t ht => ht
    | cons ix ixs ih =>
      intro hsub t ht
      refine ih (fun ix' hix' => hsub ix' (List.mem_cons_of_mem _ hix')) _ (ht.foldl ?_)
      rintro ⟨p, ds⟩ he d hd
      obtain ⟨⟨id, l⟩, hmem, rfl, hobs, rfl⟩ := hasDescriptor_getPackDescriptors.mp
        ⟨ds, Table.mem_toList.mp he, hd⟩
      exact ⟨mem_entries.mpr ⟨ix, hsub ix List.mem_cons_self, hmem⟩, hobs⟩
  refine hfold _ (fun ix hix => mem_sortByKey.mp hix) ∅ ?_
  intro p m k d hm
  cases hm

/-- The merge collects a descriptor for every blob and pack of a kept entry. -/
theorem has_allPackDescriptors {id : ID} {l : BlobLocator} (h : (id, l) ∈ mi.entries)
    (hobs : isObsolete obsolete l.packId = false) :
    PackTable.Has (allPackDescriptors obsolete mi.indices) l.packId id := by
  obtain ⟨ix, hix, hmem⟩ := mem_entries.mp h
  have hfold : ∀ (ixs : List Index) (t : PackTable), (t.Has l.packId id ∨ ix ∈ ixs) →
      PackTable.Has (ixs.foldl (fun acc ix => (Table.toList (getPackDescriptors obsolete ix)).foldl
          MasterIndex.mergePack acc) t) l.packId id := by
    intro ixs
    induction ixs with
    | nil =>
      rintro t (hold | hnil)
      · exact hold
      · cases hnil
    | cons ix' ixs ih =>
      intro t hor
      refine ih _ ?_
      rcases hor with hold | hin
      · exact Or.inl (PackTable.Has.foldl (Or.inl hold))
      · rcases List.mem_cons.mp hin with rfl | htail
        · obtain ⟨ds, hds, hd⟩ := hasDescriptor_getPackDescriptors.mpr
            ⟨(id, l), hmem, rfl, hobs, rfl⟩
          exact Or.inl (PackTable.Has.foldl
            (Or.inr ⟨(l.packId, ds), Table.mem_toList.mpr hds, rfl, _, hd, rfl⟩))
        · exact Or.inr htail
  exact hfold _ ∅ (Or.inr (mem_sortByKey.mpr hix))

/-- The entries of a list of indices, after the rebuilding loop: each is an entry of the indices at
hand or that of a descriptor of the packs to come. -/
theorem mem_rebuild {packs : List (ID × Table ID PackedBlobDescriptor)} {current : Index}
    {done : List Index} {next : Nat} {id : ID} {l : BlobLocator} {ix : Index}
    (hix : ix ∈ (rebuild env packs current done next).1) (h : (id, l) ∈ ix.iterIds) :
    (∃ ix₀ ∈ current :: done, (id, l) ∈ ix₀.iterIds) ∨
      ∃ p m k d, (p, m) ∈ packs ∧ m.lookup k = some d ∧ id = d.id ∧ l = d.locator p := by
  induction packs generalizing current done next with
  | nil =>
    simp only [rebuild] at hix
    split at hix
    · exact Or.inl ⟨ix, List.mem_cons_of_mem _ hix, h⟩
    · rcases List.mem_append.mp hix with hold | hnew
      · exact Or.inl ⟨ix, List.mem_cons_of_mem _ hold, h⟩
      · rw [List.mem_singleton] at hnew
        subst hnew
        exact Or.inl ⟨current, List.mem_cons_self, h⟩
  | cons e packs ih =>
    obtain ⟨p, m⟩ := e
    -- an entry of the current index after this pack
    have hcur : (id, l) ∈ (current.addPack p (sortByKey PackedBlobDescriptor.offset
        ((Table.toList m).map Prod.snd))).iterIds →
        (∃ ix₀ ∈ current :: done, (id, l) ∈ ix₀.iterIds) ∨
          ∃ p' m' k d, (p', m') ∈ (p, m) :: packs ∧ m'.lookup k = some d ∧ id = d.id ∧
            l = d.locator p' := by
      intro hmem
      rcases Index.mem_addPack hmem with hold | ⟨d, hd, _, hid, hl⟩
      · exact Or.inl ⟨current, List.mem_cons_self, hold⟩
      · rw [mem_sortByKey] at hd
        obtain ⟨⟨k, d'⟩, hkd, rfl⟩ := List.mem_map.mp hd
        exact Or.inr ⟨p, m, k, _, List.mem_cons_self, Table.mem_toList.mp hkd, hid, hl⟩
    have hrest : (∃ p' m' k d, (p', m') ∈ packs ∧ m'.lookup k = some d ∧ id = d.id ∧
        l = d.locator p') → (∃ ix₀ ∈ current :: done, (id, l) ∈ ix₀.iterIds) ∨
          ∃ p' m' k d, (p', m') ∈ (p, m) :: packs ∧ m'.lookup k = some d ∧ id = d.id ∧
            l = d.locator p' := by
      rintro ⟨p', m', k, d, hmem, hkd⟩
      exact Or.inr ⟨p', m', k, d, List.mem_cons_of_mem _ hmem, hkd⟩
    simp only [rebuild] at hix
    split at hix
    · rcases ih hix with ⟨ix₀, hix₀, hmem⟩ | hpacks
      · rcases List.mem_cons.mp hix₀ with rfl | hdone
        · cases hmem
        · rcases List.mem_append.mp hdone with hold | hnew
          · exact Or.inl ⟨ix₀, List.mem_cons_of_mem _ hold, hmem⟩
          · rw [List.mem_singleton] at hnew
            subst hnew
            exact hcur hmem
      · exact hrest hpacks
    · rcases ih hix with ⟨ix₀, hix₀, hmem⟩ | hpacks
      · rcases List.mem_cons.mp hix₀ with rfl | hdone
        · exact hcur hmem
        · exact Or.inl ⟨ix₀, List.mem_cons_of_mem _ hdone, hmem⟩
      · exact hrest hpacks

/-- The rebuilding loop loses no blob: neither of the indices at hand nor of the packs to come. -/
theorem rebuild_complete (env : IndexEnv) (packs : List (ID × Table ID PackedBlobDescriptor))
    (current : Index) (done : List Index) (next : Nat) {id : ID} (hmut : current.IsMutable)
    (h : (∃ ix₀ ∈ current :: done, ∃ l, (id, l) ∈ ix₀.iterIds) ∨
      ∃ p m k d, (p, m) ∈ packs ∧ m.lookup k = some d ∧ id = d.id ∧ d.blobType ≠ .padding) :
    ∃ ix ∈ (rebuild env packs current done next).1, ∃ l, (id, l) ∈ ix.iterIds := by
  induction packs generalizing current done next with
  | nil =>
    rcases h with ⟨ix₀, hix₀, l, hl⟩ | ⟨p, m, k, d, hnil, _⟩
    · simp only [rebuild]
      rcases List.mem_cons.mp hix₀ with rfl | hdone
      · split
        · rename_i hempty
          rw [Index.iterIds_eq_nil_of_isEmpty hempty] at hl
          cases hl
        · exact ⟨_, List.mem_append_right _ (List.mem_singleton_self _), l, hl⟩
      · split
        · exact ⟨ix₀, hdone, l, hl⟩
        · exact ⟨ix₀, List.mem_append_left _ hdone, l, hl⟩
    · cases hnil
  | cons e packs ih =>
    obtain ⟨p, m⟩ := e
    have hmut' := hmut.addPack p (sortByKey PackedBlobDescriptor.offset
      ((Table.toList m).map Prod.snd))
    -- after this pack the blob is in the current index, in a finished one or still to come
    have hstep : (∃ l, (id, l) ∈ (current.addPack p (sortByKey PackedBlobDescriptor.offset
        ((Table.toList m).map Prod.snd))).iterIds) ∨ (∃ ix₀ ∈ done, ∃ l, (id, l) ∈ ix₀.iterIds) ∨
        ∃ p' m' k d, (p', m') ∈ packs ∧ m'.lookup k = some d ∧ id = d.id ∧
          d.blobType ≠ .padding := by
      rcases h with ⟨ix₀, hix₀, l, hl⟩ | ⟨p', m', k, d, hmem, hkd, rfl, hne⟩
      · rcases List.mem_cons.mp hix₀ with rfl | hdone
        · obtain ⟨l', hl', _⟩ := Index.addPack_complete p (sortByKey PackedBlobDescriptor.offset
            ((Table.toList m).map Prod.snd)) hl
          exact Or.inl ⟨l', hl'⟩
        · exact Or.inr (Or.inl ⟨ix₀, hdone, l, hl⟩)
      · rcases List.mem_cons.mp hmem with heq | htail
        · cases heq
          have hd : d ∈ sortByKey PackedBlobDescriptor.offset ((Table.toList m).map Prod.snd) :=
            mem_sortByKey.mpr (List.mem_map.mpr ⟨(k, d), Table.mem_toList.mpr hkd, rfl⟩)
          obtain ⟨l', hl', _⟩ := Index.mem_addPack_self p hmut hd hne
          exact Or.inl ⟨l', hl'⟩
        · exact Or.inr (Or.inr ⟨p', m', k, d, htail, hkd, rfl, hne⟩)
    simp only [rebuild]
    split
    · refine ih _ _ _ ⟨trivial, trivial⟩ ?_
      rcases hstep with ⟨l, hl⟩ | ⟨ix₀, hix₀, l, hl⟩ | hpacks
      · exact Or.inl ⟨_, List.mem_cons_of_mem _ (List.mem_append_right _
          (List.mem_singleton_self _)), l, hl⟩
      · exact Or.inl ⟨ix₀, List.mem_cons_of_mem _ (List.mem_append_left _ hix₀), l, hl⟩
      · exact Or.inr hpacks
    · refine ih _ _ _ hmut' ?_
      rcases hstep with ⟨l, hl⟩ | ⟨ix₀, hix₀, l, hl⟩ | hpacks
      · exact Or.inl ⟨_, List.mem_cons_self, l, hl⟩
      · exact Or.inl ⟨ix₀, List.mem_cons_of_mem _ hix₀, l, hl⟩
      · exact Or.inr hpacks

/-- **A merge invents no entry**: what is left is an entry there was, outside the obsolete packs. -/
theorem mem_entries_cleanup {id : ID} {l : BlobLocator}
    (h : (id, l) ∈ (mi.cleanup env obsolete).entries) :
    (id, l) ∈ mi.entries ∧ isObsolete obsolete l.packId = false := by
  obtain ⟨ix, hix, hmem⟩ := mem_entries.mp h
  rcases mem_rebuild hix hmem with ⟨ix₀, hix₀, hmem₀⟩ | ⟨p, m, k, d, hpm, hkd, rfl, rfl⟩
  · rw [List.mem_singleton] at hix₀
    subst hix₀
    cases hmem₀
  · rw [mem_sortByKey] at hpm
    exact (sound_allPackDescriptors p m k d (Table.mem_toList.mp hpm) hkd).2

/-- **A merge loses no blob** that has an entry outside the obsolete packs. -/
theorem cleanup_complete {id : ID} {l : BlobLocator} (env : IndexEnv) (h : (id, l) ∈ mi.entries)
    (hobs : isObsolete obsolete l.packId = false) :
    ∃ l', (id, l') ∈ (mi.cleanup env obsolete).entries := by
  obtain ⟨m, d, hm, hd⟩ := has_allPackDescriptors h hobs
  obtain ⟨hid, hkept, _⟩ := sound_allPackDescriptors l.packId m id d hm hd
  obtain ⟨ix₁, hix₁, hmem₁⟩ := mem_entries.mp hkept
  have hne : d.blobType ≠ .padding := Index.blobType_ne_padding hmem₁
  have hpm : (l.packId, m) ∈ sortByKey Prod.fst
      (Table.toList (allPackDescriptors obsolete mi.indices)) :=
    mem_sortByKey.mpr (Table.mem_toList.mpr hm)
  obtain ⟨ix, hix, l', hl'⟩ := rebuild_complete env _ (.new mi.nextInstance) []
    (mi.nextInstance + 1) ⟨trivial, trivial⟩ (Or.inr ⟨l.packId, m, id, d, hpm, hd, hid, hne⟩)
  exact ⟨l', mem_entries.mpr ⟨ix, hix, hl'⟩⟩

/-- What the rebuilding loop keeps: no index is in a file, a pending one accepts entries, and the
instance IDs are distinct and drawn. -/
structure Rebuilt (indices : List Index) (next : Nat) : Prop where
  unsaved : ∀ ix ∈ indices, ix.isPersisted = false
  isMutable : ∀ ix ∈ indices, ix.isPending = true → ix.IsMutable
  nodup : (indices.map Index.instanceId).Nodup
  drawn : ∀ ix ∈ indices, ix.instanceId < next

/-- An index joins the others under an instance ID that none of them has. -/
theorem Rebuilt.append {indices : List Index} {ix : Index} {next next' : Nat}
    (h : Rebuilt indices next) (hunsaved : ix.isPersisted = false) (hmut : ix.IsMutable)
    (hinst : ∀ ix' ∈ indices, ix'.instanceId ≠ ix.instanceId) (hle : next ≤ next')
    (hlt : ix.instanceId < next') : Rebuilt (indices ++ [ix]) next' := by
  refine ⟨?_, ?_, ?_, ?_⟩
  · intro ix' hix'
    rcases List.mem_append.mp hix' with hold | hnew
    · exact h.unsaved ix' hold
    · rw [List.mem_singleton.mp hnew]
      exact hunsaved
  · intro ix' hix' hp
    rcases List.mem_append.mp hix' with hold | hnew
    · exact h.isMutable ix' hold hp
    · rw [List.mem_singleton.mp hnew]
      exact hmut
  · rw [List.map_append, List.nodup_append]
    refine ⟨h.nodup, List.nodup_singleton _, ?_⟩
    rintro a ha b hb rfl
    obtain ⟨ix', hix', rfl⟩ := List.mem_map.mp ha
    exact hinst ix' hix' (List.mem_singleton.mp hb)
  · intro ix' hix'
    rcases List.mem_append.mp hix' with hold | hnew
    · exact lt_of_lt_of_le (h.drawn ix' hold) hle
    · rw [List.mem_singleton.mp hnew]
      exact hlt

theorem rebuilt_rebuild (env : IndexEnv) (packs : List (ID × Table ID PackedBlobDescriptor))
    (current : Index) (done : List Index) (next : Nat) (hmut : current.IsMutable)
    (hdone : Rebuilt done next) (hinst : ∀ ix ∈ done, ix.instanceId ≠ current.instanceId)
    (hlt : current.instanceId < next) :
    Rebuilt (rebuild env packs current done next).1 (rebuild env packs current done next).2 := by
  induction packs generalizing current done next with
  | nil =>
    simp only [rebuild]
    split
    · exact hdone
    · exact hdone.append rfl hmut hinst le_rfl hlt
  | cons e packs ih =>
    obtain ⟨p, m⟩ := e
    have hmut' := hmut.addPack p (sortByKey PackedBlobDescriptor.offset
      ((Table.toList m).map Prod.snd))
    simp only [rebuild]
    split
    · -- the full index is done, and the next one starts empty
      refine ih _ _ _ ⟨trivial, trivial⟩ ?_ ?_ (Nat.lt_succ_self next)
      · refine hdone.append rfl hmut' ?_ (Nat.le_succ next) ?_
        · exact fun ix hix => by
            simpa only [Index.finalize, Index.setStatus, Index.addPack_instanceId]
              using hinst ix hix
        · simpa only [Index.finalize, Index.setStatus, Index.addPack_instanceId]
            using Nat.lt_succ_of_lt hlt
      · intro ix hix
        rcases List.mem_append.mp hix with hold | hnew
        · exact Nat.ne_of_lt (hdone.drawn ix hold)
        · rw [List.mem_singleton.mp hnew]
          simpa only [Index.finalize, Index.setStatus, Index.addPack_instanceId, Index.new]
            using Nat.ne_of_lt hlt
    · refine ih _ _ _ hmut' hdone ?_ ?_
      · simpa only [Index.addPack_instanceId] using hinst
      · simpa only [Index.addPack_instanceId] using hlt

theorem rebuilt_cleanup (env : IndexEnv) (mi : MasterIndex) (obsolete : Option (Finset ID)) :
    Rebuilt (mi.cleanup env obsolete).indices (mi.cleanup env obsolete).nextInstance :=
  rebuilt_rebuild env _ _ _ _ ⟨trivial, trivial⟩
    ⟨fun _ h => (by cases h), fun _ h => (by cases h), List.nodup_nil, fun _ h => (by cases h)⟩
    (fun _ h => (by cases h)) (Nat.lt_succ_self _)

/-- A merge writes nothing, so none of its indices is in a file. -/
theorem unsaved_cleanup (env : IndexEnv) (mi : MasterIndex) (obsolete : Option (Finset ID)) :
    (mi.cleanup env obsolete).Unsaved :=
  (rebuilt_cleanup env mi obsolete).unsaved

@[simp] theorem pendingBlobs_cleanup (env : IndexEnv) (mi : MasterIndex)
    (obsolete : Option (Finset ID)) : (mi.cleanup env obsolete).pendingBlobs = mi.pendingBlobs := rfl

/-- The Bloom filter is kept, and it knows more than what is left. -/
theorem WF.cleanup (hwf : mi.WF) (env : IndexEnv) (obsolete : Option (Finset ID)) :
    (mi.cleanup env obsolete).WF where
  isMutable := (rebuilt_cleanup env mi obsolete).isMutable
  nodup := (rebuilt_cleanup env mi obsolete).nodup
  drawn := (rebuilt_cleanup env mi obsolete).drawn
  bloom := fun bf hbf id l hmem => hwf.bloom bf hbf id l (mem_entries_cleanup hmem).1

/-- The rebuilding loop finishes an index when it is full. -/
theorem full_rebuild (env : IndexEnv) (packs : List (ID × Table ID PackedBlobDescriptor))
    (current : Index) (done : List Index) (next : Nat) (hdone : ∀ ix ∈ done, ix.isFull env = true) :
    ∃ full last, (rebuild env packs current done next).1 = full ++ last ∧
      (∀ ix ∈ full, ix.isFull env = true) ∧ last.length ≤ 1 := by
  induction packs generalizing current done next with
  | nil =>
    simp only [rebuild]
    split
    · exact ⟨done, [], (List.append_nil done).symm, hdone, Nat.zero_le 1⟩
    · exact ⟨done, _, rfl, hdone, le_rfl⟩
  | cons e packs ih =>
    obtain ⟨p, m⟩ := e
    simp only [rebuild]
    split
    · rename_i hfull
      refine ih _ _ _ fun ix hix => ?_
      rcases List.mem_append.mp hix with hold | hnew
      · exact hdone ix hold
      · rw [List.mem_singleton.mp hnew]
        exact hfull
    · exact ih _ _ _ hdone

end Cleanup

end MasterIndex

end Mapache
