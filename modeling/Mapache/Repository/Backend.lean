import Mapache.Repository.MasterIndex

/-!
# The files of a repository

The backend as the repository uses it: packs, index files and snapshots under their IDs, with the
writes and deletes that `Repository::save_file` and `Repository::delete_file` issue. A write appears
under its final name at once, since every backend writes to a temporary name and renames. The ID of
a pack or an index file is the hash of data that starts with a random nonce, so a write goes to an
ID that no file has or had (`Backend.Fresh`); `removed` remembers the IDs of deleted files for that
purpose only.

`Holds` says that an index entry points to an existing pack with the blob in it, and
`reloadMasterIndex` is the index that a client makes of the files. The lookups of a reloaded index
are described by `Backend.Indexed`.
-/

set_option autoImplicit false

namespace Mapache

open Lib

/-- The parameters of the repository code: those of the index, the storage, the content hash and the
pack size. -/
structure Env extends IndexEnv where
  storage : SecureStorage
  fromContent : Bytes → ID
  maxPackerSize : Nat

/-- The part of a snapshot file that the repository code follows: the ID of its root tree. -/
structure Snapshot where
  tree : ID
  deriving DecidableEq

/-- The files of a repository. `removed` are the IDs of files that were deleted. -/
structure Backend where
  packs : Table ID Bytes
  index : Table ID IndexFile
  snapshots : Table ID Snapshot
  removed : Finset ID

namespace Backend

/-- No pack or index file has or had the ID. -/
def Fresh (b : Backend) (id : ID) : Prop :=
  b.packs.lookup id = none ∧ b.index.lookup id = none ∧ id ∉ b.removed

/-- Write a pack. -/
def savePack (b : Backend) (id : ID) (data : Bytes) : Backend :=
  { b with packs := b.packs.insert id data }

/-- Write an index file. -/
def saveIndex (b : Backend) (id : ID) (f : IndexFile) : Backend :=
  { b with index := b.index.insert id f }

/-- Write a snapshot. -/
def saveSnapshot (b : Backend) (id : ID) (snap : Snapshot) : Backend :=
  { b with snapshots := b.snapshots.insert id snap }

/-- Delete a pack. -/
def deletePack (b : Backend) (id : ID) : Backend :=
  { b with packs := b.packs.erase id, removed := insert id b.removed }

/-- Delete an index file. -/
def deleteIndex (b : Backend) (id : ID) : Backend :=
  { b with index := b.index.erase id, removed := insert id b.removed }

/-- `Repository::load_from_pack`. -/
def loadFromPack (env : Env) (b : Backend) (l : BlobLocator) : Option Bytes :=
  (b.packs.lookup l.packId).bind fun data =>
    env.storage.decodeOwned (readRange data l.offset l.length)

/-- The entry points to an existing pack that holds the blob: the bytes at its range decode to the
plaintext of the ID. -/
def Holds (env : Env) (plain : ID → Bytes) (b : Backend) (e : ID × BlobLocator) : Prop :=
  ∃ data, b.packs.lookup e.2.packId = some data ∧
    DescribesSlice env.storage plain data (MasterIndex.descriptorOf e)

/-- An index file with an ID from `F` lists the blob. -/
def Indexed (F : Set ID) (b : Backend) (id : ID) : Prop :=
  ∃ fid f l, fid ∈ F ∧ b.index.lookup fid = some f ∧ (id, l) ∈ f.entries

/-- Every entry of the index files with an ID from `F` is one of `G` and points to an existing pack
that holds the blob. -/
def IndexSound (env : Env) (plain : ID → Bytes) (G : Set (ID × BlobLocator)) (F : Set ID)
    (b : Backend) : Prop :=
  ∀ fid f, fid ∈ F → b.index.lookup fid = some f → ∀ e ∈ f.entries, e ∈ G ∧ b.Holds env plain e

/-- The repository is consistent: every index entry points to an existing pack that holds the blob.
-/
def Consistent (env : Env) (plain : ID → Bytes) (b : Backend) : Prop :=
  ∀ fid f, b.index.lookup fid = some f → ∀ e ∈ f.entries, b.Holds env plain e

/-- What a client does to the backend keeps what another one relies on: packs stay, blobs stay
listed in the index files from `F`, and no ID becomes fresh again. -/
structure Keeps (F : Set ID) (b b' : Backend) : Prop where
  packs : ∀ p data, b.packs.lookup p = some data → b'.packs.lookup p = some data
  indexed : ∀ id, b.Indexed F id → b'.Indexed F id
  fresh : ∀ id, b'.Fresh id → b.Fresh id

section

variable {env : Env} {plain : ID → Bytes} {F : Set ID} {b b' b'' : Backend} {id : ID}

theorem Keeps.refl : Keeps F b b := ⟨fun _ _ h => h, fun _ h => h, fun _ h => h⟩

theorem Holds.keeps {e : ID × BlobLocator} (h : b.Holds env plain e) (hk : Keeps F b b') :
    b'.Holds env plain e := by
  obtain ⟨data, hdata, hslice⟩ := h
  exact ⟨data, hk.packs _ data hdata, hslice⟩

/-- Loading an entry that holds its blob gives the plaintext. -/
theorem Holds.loadFromPack {e : ID × BlobLocator} (h : b.Holds env plain e) :
    b.loadFromPack env e.2 = some (plain e.1) := by
  obtain ⟨data, hdata, enc, hslice, hne, hdec⟩ := h
  rw [Backend.loadFromPack, hdata]
  simp only [Option.bind_some, SecureStorage.decodeOwned_eq_decode]
  rw [show readRange data e.2.offset e.2.length = enc from hslice.readRange hne]
  exact hdec

theorem keeps_savePack (data : Bytes) (h : b.Fresh id) : Keeps F b (b.savePack id data) := by
  refine ⟨?_, fun _ hi => hi, ?_⟩
  · intro p old hp
    rw [savePack, Table.lookup_insert_eq_ite]
    split
    · rename_i heq
      rw [heq, h.1] at hp
      cases hp
    · exact hp
  · intro i hi
    refine ⟨?_, hi.2⟩
    have hlook := hi.1
    rw [savePack, Table.lookup_insert_eq_ite] at hlook
    split at hlook
    · cases hlook
    · exact hlook

theorem keeps_saveIndex {f : IndexFile} (h : b.Fresh id) : Keeps F b (b.saveIndex id f) := by
  refine ⟨fun _ _ hp => hp, ?_, ?_⟩
  · rintro i ⟨fid, g, l, hF, hg, hl⟩
    refine ⟨fid, g, l, hF, ?_, hl⟩
    rw [saveIndex, Table.lookup_insert_eq_ite]
    split
    · rename_i heq
      rw [heq, h.2.1] at hg
      cases hg
    · exact hg
  · intro i hi
    refine ⟨hi.1, ?_, hi.2.2⟩
    have hlook := hi.2.1
    rw [saveIndex, Table.lookup_insert_eq_ite] at hlook
    split at hlook
    · cases hlook
    · exact hlook

theorem keeps_saveSnapshot {snap : Snapshot} : Keeps F b (b.saveSnapshot id snap) :=
  ⟨fun _ _ hp => hp, fun _ hi => hi, fun _ hf => hf⟩

theorem lookup_deletePack {p : ID} : (b.deletePack id).packs.lookup p =
    if p = id then none else b.packs.lookup p := Table.lookup_erase_eq_ite _ _ _

theorem lookup_deleteIndex {fid : ID} : (b.deleteIndex id).index.lookup fid =
    if fid = id then none else b.index.lookup fid := Table.lookup_erase_eq_ite _ _ _

theorem fresh_of_deletePack {p : ID} (h : (b.deletePack p).Fresh id) : b.Fresh id := by
  obtain ⟨hpack, hindex, hremoved⟩ := h
  have hne : id ≠ p := fun heq => hremoved (heq ▸ Finset.mem_insert_self _ _)
  rw [lookup_deletePack, if_neg hne] at hpack
  exact ⟨hpack, hindex, fun hmem => hremoved (Finset.mem_insert_of_mem hmem)⟩

theorem fresh_of_deleteIndex {fid : ID} (h : (b.deleteIndex fid).Fresh id) : b.Fresh id := by
  obtain ⟨hpack, hindex, hremoved⟩ := h
  have hne : id ≠ fid := fun heq => hremoved (heq ▸ Finset.mem_insert_self _ _)
  rw [lookup_deleteIndex, if_neg hne] at hindex
  exact ⟨hpack, hindex, fun hmem => hremoved (Finset.mem_insert_of_mem hmem)⟩

/-- A file that does not count may go. -/
theorem indexed_deleteIndex (fid : ID) (h : b.Indexed F id) (hfid : fid ∉ F) :
    (b.deleteIndex fid).Indexed F id := by
  obtain ⟨fid', f, l, hF, hf, hl⟩ := h
  refine ⟨fid', f, l, hF, ?_, hl⟩
  rw [lookup_deleteIndex, if_neg]
  · exact hf
  · rintro rfl
    exact hfid hF

end

/-! ## Loading the index -/

/-- The instance IDs that the files of a backend get when they are loaded. They are drawn by
concurrent tasks, so their order says nothing. -/
structure Instances (b : Backend) where
  inst : ID → Nat
  next : Nat
  inj : ∀ i f j g, b.index.lookup i = some f → b.index.lookup j = some g → inst i = inst j → i = j
  lt : ∀ i f, b.index.lookup i = some f → inst i < next

/-- The files of the index in the order of their names. -/
def indexFiles (b : Backend) : List (ID × IndexFile) := sortByKey Prod.fst (Table.toList b.index)

/-- `Repository::reload_master_index`. -/
def reloadMasterIndex (env : IndexEnv) (b : Backend) (num : Instances b) : MasterIndex :=
  let loaded := b.indexFiles.map fun e => Index.fromIndexFile env (num.inst e.1) e.2 e.1
  let mi := loaded.foldl MasterIndex.addIndex { MasterIndex.new with nextInstance := num.next }
  if 0 < mi.numBlobs then mi.initializeBloomFilter env mi.numBlobs else mi

section Reload

variable {env : IndexEnv} {b : Backend} {num : Instances b}

theorem mem_indexFiles {fid : ID} {f : IndexFile} :
    (fid, f) ∈ b.indexFiles ↔ b.index.lookup fid = some f := by
  rw [indexFiles, mem_sortByKey, Table.mem_toList]

theorem foldl_addIndex (ixs : List Index) (mi : MasterIndex) (h : mi.bloomFilter = none) :
    ixs.foldl MasterIndex.addIndex mi = { mi with indices := mi.indices ++ ixs } := by
  induction ixs generalizing mi with
  | nil => simp
  | cons ix ixs ih =>
    rw [List.foldl_cons, ih (mi.addIndex ix) (by simp [MasterIndex.addIndex, h])]
    simp [MasterIndex.addIndex, h]

theorem indices_reload : (b.reloadMasterIndex env num).indices =
    b.indexFiles.map fun e => Index.fromIndexFile env (num.inst e.1) e.2 e.1 := by
  unfold reloadMasterIndex
  dsimp only
  rw [foldl_addIndex _ _ rfl]
  split
  · simp [MasterIndex.initializeBloomFilter, MasterIndex.new]
  · simp [MasterIndex.new]

theorem pendingBlobs_reload : (b.reloadMasterIndex env num).pendingBlobs = ∅ := by
  unfold reloadMasterIndex
  dsimp only
  rw [foldl_addIndex _ _ rfl]
  split <;> rfl

theorem nextInstance_reload : (b.reloadMasterIndex env num).nextInstance = num.next := by
  unfold reloadMasterIndex
  dsimp only
  rw [foldl_addIndex _ _ rfl]
  split <;> rfl

/-- Every loaded index is that of a file. -/
theorem mem_indices_reload {ix : Index} : ix ∈ (b.reloadMasterIndex env num).indices ↔
    ∃ fid f, b.index.lookup fid = some f ∧ ix = Index.fromIndexFile env (num.inst fid) f fid := by
  rw [indices_reload, List.mem_map]
  constructor
  · rintro ⟨⟨fid, f⟩, hmem, rfl⟩
    exact ⟨fid, f, mem_indexFiles.mp hmem, rfl⟩
  · rintro ⟨fid, f, hf, rfl⟩
    exact ⟨(fid, f), mem_indexFiles.mpr hf, rfl⟩

/-- **The entries of a reloaded index are those of the files.** -/
theorem mem_entries_reload {e : ID × BlobLocator} : e ∈ (b.reloadMasterIndex env num).entries ↔
    ∃ fid f, b.index.lookup fid = some f ∧ e ∈ f.entries := by
  rw [MasterIndex.mem_entries]
  constructor
  · rintro ⟨ix, hix, hmem⟩
    obtain ⟨fid, f, hf, rfl⟩ := mem_indices_reload.mp hix
    exact ⟨fid, f, hf, Index.mem_iterIds_fromIndexFile.mp hmem⟩
  · rintro ⟨fid, f, hf, hmem⟩
    exact ⟨_, mem_indices_reload.mpr ⟨fid, f, hf, rfl⟩, Index.mem_iterIds_fromIndexFile.mpr hmem⟩

/-- The answer of one index file to a lookup. -/
def answer (env : IndexEnv) (f : IndexFile) (id : ID) : Option BlobLocator :=
  (Index.fromIndexFile env 0 f 0).get env id

theorem mem_of_answer {f : IndexFile} {id : ID} {l : BlobLocator} (h : answer env f id = some l) :
    (id, l) ∈ f.entries :=
  Index.mem_iterIds_fromIndexFile.mp (Index.mem_of_get h)

/-- A lookup is answered by one of the files. -/
theorem exists_answer_of_get {id : ID} {l : BlobLocator}
    (h : (b.reloadMasterIndex env num).get env id = some l) :
    ∃ fid f, b.index.lookup fid = some f ∧ answer env f id = some l := by
  obtain ⟨ix, hix, hget⟩ := MasterIndex.exists_of_findSome h
  obtain ⟨fid, f, hf, rfl⟩ := mem_indices_reload.mp hix
  exact ⟨fid, f, hf, hget⟩

/-- The IDs of a reloaded index are those of the files. -/
theorem mem_ids_reload {fid : ID} :
    fid ∈ (b.reloadMasterIndex env num).ids ↔ ∃ f, b.index.lookup fid = some f := by
  rw [MasterIndex.ids, List.mem_toFinset, List.mem_filterMap]
  constructor
  · rintro ⟨ix, hix, hid⟩
    obtain ⟨fid', f, hf, rfl⟩ := mem_indices_reload.mp hix
    split at hid
    · cases hid
    · cases hid
      exact ⟨f, hf⟩
  · rintro ⟨f, hf⟩
    exact ⟨_, mem_indices_reload.mpr ⟨fid, f, hf, rfl⟩, rfl⟩

theorem nodup_indexFiles : (b.indexFiles.map Prod.fst).Nodup := by
  have hperm : (b.indexFiles.map Prod.fst).Perm (Table.toList b.index |>.map Prod.fst) :=
    (List.perm_insertionSort _ _).map _
  rw [hperm.nodup_iff]
  simp only [Table.toList, List.map_map]
  exact b.index.nodupKeys

theorem wf_reload : (b.reloadMasterIndex env num).WF := by
  refine ⟨?_, ?_, ?_, ?_⟩
  · intro ix hix hp
    obtain ⟨fid, f, _, rfl⟩ := mem_indices_reload.mp hix
    simp [Index.isPending, Index.fromIndexFile] at hp
  · rw [indices_reload, List.map_map]
    refine List.Nodup.map_on ?_ (List.Nodup.of_map _ nodup_indexFiles)
    rintro ⟨i, f⟩ hi ⟨j, g⟩ hj heq
    have hif := mem_indexFiles.mp hi
    have hjg := mem_indexFiles.mp hj
    have hij : i = j := num.inj i f j g hif hjg heq
    subst hij
    rw [hif] at hjg
    cases hjg
    rfl
  · intro ix hix
    obtain ⟨fid, f, hf, rfl⟩ := mem_indices_reload.mp hix
    rw [nextInstance_reload]
    exact num.lt fid f hf
  · intro bf hbf id l hmem
    unfold reloadMasterIndex at hbf hmem
    dsimp only at hbf hmem
    rw [foldl_addIndex _ _ rfl] at hbf hmem
    split at hbf
    · rw [if_pos ‹_›] at hmem
      cases hbf
      exact BloomFilter.contains_insertAll (List.mem_map_of_mem (f := Prod.fst) hmem)
    · cases hbf

end Reload

end Backend

/-- `Repository::load_blob`. -/
def loadBlob (env : Env) (b : Backend) (mi : MasterIndex) (id : ID) : Option Bytes :=
  (mi.get env.toIndexEnv id).bind (b.loadFromPack env)

section Load

variable {env : Env} {plain : ID → Bytes} {b : Backend} {mi : MasterIndex}

/-- What `load_blob` returns is the plaintext of the ID, if the entries whose packs are there point
to their blobs. -/
theorem loadBlob_eq
    (h : ∀ e ∈ mi.entries, (∃ data, b.packs.lookup e.2.packId = some data) → b.Holds env plain e)
    {id : ID} {bytes : Bytes} (hload : loadBlob env b mi id = some bytes) : bytes = plain id := by
  obtain ⟨loc, hget, hpack⟩ := Option.bind_eq_some_iff.mp hload
  obtain ⟨data, hdata, -⟩ := Option.bind_eq_some_iff.mp hpack
  rw [(h _ (MasterIndex.mem_of_get hget) ⟨data, hdata⟩).loadFromPack] at hpack
  exact (Option.some.inj hpack).symm

/-- The entries of the index of a consistent repository point to packs that hold the blobs. -/
theorem Backend.Consistent.holds_reload (h : b.Consistent env plain) {num : b.Instances} :
    ∀ e ∈ (b.reloadMasterIndex env.toIndexEnv num).entries, b.Holds env plain e := by
  intro e he
  obtain ⟨fid, f, hf, hmem⟩ := Backend.mem_entries_reload.mp he
  exact h fid f hf e hmem

end Load

end Mapache
