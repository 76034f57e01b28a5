import Mapache.Repository.Index

/-!
# Index files

The on-disk format of an index. `Index.toFile` is the file that `Index::persist` writes and
`Index.fromIndexFile` the index that a load makes of it. Neither changes the entries
(`mem_entries_toFile`, `mem_iterIds_fromIndexFile`), so an index file stands for the list of its
entries in the rest of the development.
-/

set_option autoImplicit false

namespace Mapache

open Lib

/-- A blob's entry within a pack of an index file. -/
abbrev IndexFileBlob := PackedBlobDescriptor

/-- A pack's entry within an index file. -/
structure IndexFilePack where
  id : ID
  blobs : List IndexFileBlob
  deriving DecidableEq

/-- The on-disk format of an index. -/
structure IndexFile where
  packs : List IndexFilePack
  deriving DecidableEq

/-- The entries of an index file: every blob but the padding, which a load skips. -/
def IndexFile.entries (f : IndexFile) : List (ID × BlobLocator) :=
  f.packs.flatMap fun pack =>
    (pack.blobs.filter fun b => b.blobType ≠ .padding).map fun b => (b.id, b.locator pack.id)

theorem IndexFile.mem_entries {f : IndexFile} {id : ID} {l : BlobLocator} :
    (id, l) ∈ f.entries ↔ ∃ pack ∈ f.packs, ∃ b ∈ pack.blobs, b.blobType ≠ .padding ∧ id = b.id ∧
      l = b.locator pack.id := by
  rw [IndexFile.entries, List.mem_flatMap]
  constructor
  · rintro ⟨pack, hpack, hmem⟩
    obtain ⟨b, hb, heq⟩ := List.mem_map.mp hmem
    rw [List.mem_filter, decide_eq_true_eq] at hb
    cases heq
    exact ⟨pack, hpack, b, hb.1, hb.2, rfl, rfl⟩
  · rintro ⟨pack, hpack, b, hb, hne, rfl, rfl⟩
    refine ⟨pack, hpack, List.mem_map.mpr ⟨b, ?_, rfl⟩⟩
    rw [List.mem_filter, decide_eq_true_eq]
    exact ⟨hb, hne⟩

namespace Index

/-- The blobs of one map that lie in the pack with number `k`. -/
def blobsOfPack (m : BlobMap) (t : BlobType) (k : Nat) : List IndexFileBlob :=
  (m.toList.filter fun e => e.2.packArrayIndex = k).map fun e =>
    ⟨e.1, t, e.2.offset, e.2.length, e.2.rawLength⟩

/-- The file that `Index::persist` writes: for each pack its blobs sorted by ID, packs without blobs
left out, packs sorted by ID. -/
def toFile (ix : Index) : IndexFile :=
  let packs := ix.packIds.values.mapIdx fun k packId =>
    (⟨packId, sortByKey PackedBlobDescriptor.id
      (blobsOfPack ix.dataIds .data k ++ blobsOfPack ix.treeIds .tree k)⟩ : IndexFilePack)
  ⟨sortByKey IndexFilePack.id (packs.filter fun p => p.blobs ≠ [])⟩

/-- The blobs of one type of a pack with number `k`. -/
def loadBlobs (t : BlobType) (k : Nat) (blobs : List IndexFileBlob) :
    List (ID × BlobLocationInternal) :=
  (blobs.filter fun b => b.blobType = t).map fun b => (b.id, b.location k)

theorem mem_loadBlobs {t : BlobType} {k : Nat} {blobs : List IndexFileBlob} {id : ID}
    {loc : BlobLocationInternal} : (id, loc) ∈ loadBlobs t k blobs ↔
      ∃ b ∈ blobs, b.blobType = t ∧ id = b.id ∧ loc = b.location k := by
  rw [loadBlobs, List.mem_map]
  constructor
  · rintro ⟨b, hb, heq⟩
    rw [List.mem_filter, decide_eq_true_eq] at hb
    cases heq
    exact ⟨b, hb.1, hb.2, rfl, rfl⟩
  · rintro ⟨b, hb, ht, rfl, rfl⟩
    refine ⟨b, ?_, rfl⟩
    rw [List.mem_filter, decide_eq_true_eq]
    exact ⟨hb, ht⟩

/-- What `from_index_file` has collected: the pack IDs and the data and tree entries, in file order.
-/
structure Loaded where
  packIds : IndexSet ID
  data : List (ID × BlobLocationInternal)
  tree : List (ID × BlobLocationInternal)
  inRange : ∀ e ∈ data ++ tree, (packIds.getValue e.2.packArrayIndex).isSome = true

/-- One turn of the outer loop of `from_index_file`. -/
def Loaded.addPack (acc : Loaded) (pack : IndexFilePack) : Loaded where
  packIds := (acc.packIds.insert pack.id).1
  data := acc.data ++ loadBlobs .data (acc.packIds.insert pack.id).2 pack.blobs
  tree := acc.tree ++ loadBlobs .tree (acc.packIds.insert pack.id).2 pack.blobs
  inRange := by
    have hold : ∀ e ∈ acc.data ++ acc.tree,
        ((acc.packIds.insert pack.id).1.getValue e.2.packArrayIndex).isSome = true := by
      intro e he
      obtain ⟨p, hp⟩ := Option.isSome_iff_exists.mp (acc.inRange e he)
      rw [IndexSet.getValue_insert_of_some pack.id hp]
      rfl
    have hnew : ∀ t, ∀ e ∈ loadBlobs t (acc.packIds.insert pack.id).2 pack.blobs,
        ((acc.packIds.insert pack.id).1.getValue e.2.packArrayIndex).isSome = true := by
      rintro t ⟨id, loc⟩ he
      obtain ⟨b, _, _, _, rfl⟩ := mem_loadBlobs.mp he
      simp only [PackedBlobDescriptor.location]
      rw [IndexSet.getValue_insert]
      rfl
    intro e he
    rcases List.mem_append.mp he with hdata | htree
    · rcases List.mem_append.mp hdata with h | h
      · exact hold e (List.mem_append_left _ h)
      · exact hnew .data e h
    · rcases List.mem_append.mp htree with h | h
      · exact hold e (List.mem_append_right _ h)
      · exact hnew .tree e h

/-- `Index::from_index_file`, with the instance ID it draws. -/
def fromIndexFile (env : IndexEnv) (instanceId : Nat) (f : IndexFile) (id : ID) : Index :=
  let loaded := f.packs.foldl Loaded.addPack ⟨.new, [], [], by simp⟩
  { instanceId := instanceId
    dataIds := .ofList env loaded.data
    treeIds := .ofList env loaded.tree
    packIds := loaded.packIds
    status := .persisted id
    inRange := by
      intro e he
      simp only [List.mem_append, BlobMap.mem_toList_ofList] at he
      exact loaded.inRange e (List.mem_append.mpr he) }

section File

variable {env : IndexEnv} {ix : Index} {id : ID} {l : BlobLocator}

/-- The blob has an entry of the given type among what was collected. -/
def Loaded.HasIn (acc : Loaded) (entries : List (ID × BlobLocationInternal)) (t : BlobType) (id : ID)
    (l : BlobLocator) : Prop :=
  ∃ loc, (id, loc) ∈ entries ∧ acc.packIds.getValue loc.packArrayIndex = some l.packId ∧
    loc.offset = l.offset ∧ loc.length = l.length ∧ loc.rawLength = l.rawLength ∧ l.blobType = t

/-- The entries after one more pack are the old ones and those of the pack. -/
theorem Loaded.hasIn_append (acc : Loaded) (pack : IndexFilePack) (id : ID) (l : BlobLocator)
    {entries : List (ID × BlobLocationInternal)} (hsub : ∀ e ∈ entries, e ∈ acc.data ++ acc.tree)
    (t : BlobType) :
    (acc.addPack pack).HasIn
        (entries ++ loadBlobs t (acc.packIds.insert pack.id).2 pack.blobs) t id l ↔
      acc.HasIn entries t id l ∨
        ∃ b ∈ pack.blobs, b.blobType = t ∧ id = b.id ∧ l = b.locator pack.id := by
  constructor
  · rintro ⟨loc, hmem, hpack, hoff, hlen, hraw, ht⟩
    rcases List.mem_append.mp hmem with hold | hnew
    · obtain ⟨p, hp⟩ := Option.isSome_iff_exists.mp (acc.inRange _ (hsub _ hold))
      have hp' := IndexSet.getValue_insert_of_some pack.id hp
      have heq : p = l.packId := Option.some.inj (hp'.symm.trans hpack)
      exact Or.inl ⟨loc, hold, heq ▸ hp, hoff, hlen, hraw, ht⟩
    · obtain ⟨b, hb, hbt, rfl, rfl⟩ := mem_loadBlobs.mp hnew
      have heq : pack.id = l.packId :=
        Option.some.inj ((IndexSet.getValue_insert acc.packIds pack.id).symm.trans hpack)
      refine Or.inr ⟨b, hb, hbt, rfl, ?_⟩
      simp only [PackedBlobDescriptor.location] at hoff hlen hraw
      simp only [PackedBlobDescriptor.locator, heq, hoff, hlen, hraw, hbt, ← ht]
  · rintro (⟨loc, hmem, hpack, hrest⟩ | ⟨b, hb, hbt, rfl, rfl⟩)
    · exact ⟨loc, List.mem_append_left _ hmem, IndexSet.getValue_insert_of_some pack.id hpack, hrest⟩
    · refine ⟨b.location (acc.packIds.insert pack.id).2, List.mem_append_right _ ?_, ?_, rfl, rfl,
        rfl, hbt⟩
      · exact mem_loadBlobs.mpr ⟨b, hb, hbt, rfl, rfl⟩
      · exact IndexSet.getValue_insert acc.packIds pack.id

/-- What was collected from a list of packs, by induction on it. -/
theorem Loaded.hasIn_foldl (id : ID) (l : BlobLocator) (packs : List IndexFilePack) (acc : Loaded) :
    ((packs.foldl Loaded.addPack acc).HasIn (packs.foldl Loaded.addPack acc).data .data id l ↔
        acc.HasIn acc.data .data id l ∨
          ∃ pack ∈ packs, ∃ b ∈ pack.blobs, b.blobType = .data ∧ id = b.id ∧
            l = b.locator pack.id) ∧
      ((packs.foldl Loaded.addPack acc).HasIn (packs.foldl Loaded.addPack acc).tree .tree id l ↔
        acc.HasIn acc.tree .tree id l ∨
          ∃ pack ∈ packs, ∃ b ∈ pack.blobs, b.blobType = .tree ∧ id = b.id ∧
            l = b.locator pack.id) := by
  induction packs generalizing acc with
  | nil => simp
  | cons pack packs ih =>
    obtain ⟨hdata, htree⟩ := ih (acc.addPack pack)
    have hdata' := acc.hasIn_append pack id l
      (fun e he => List.mem_append_left acc.tree he) .data
    have htree' := acc.hasIn_append pack id l
      (fun e he => List.mem_append_right acc.data he) .tree
    simp only [List.foldl_cons, List.mem_cons, exists_eq_or_imp]
    constructor
    · rw [hdata]
      exact (or_congr_left hdata').trans or_assoc
    · rw [htree]
      exact (or_congr_left htree').trans or_assoc

/-- **A loaded index has the entries of its file.** -/
theorem mem_iterIds_fromIndexFile {n : Nat} {f : IndexFile} {fid : ID} :
    (id, l) ∈ (fromIndexFile env n f fid).iterIds ↔ (id, l) ∈ f.entries := by
  obtain ⟨hdata, htree⟩ := Loaded.hasIn_foldl id l f.packs ⟨.new, [], [], by simp⟩
  rw [mem_iterIds, IndexFile.mem_entries]
  simp only [resolveLocation_eq_some, fromIndexFile, BlobMap.mem_toList_ofList]
  rw [show (∃ loc, _) ↔ _ from hdata, show (∃ loc, _) ↔ _ from htree]
  constructor
  · rintro ((⟨_, hnil, _⟩ | ⟨pack, hp, b, hb, ht, heq⟩) | (⟨_, hnil, _⟩ | ⟨pack, hp, b, hb, ht, heq⟩))
    · cases hnil
    · exact ⟨pack, hp, b, hb, by rw [ht]; decide, heq⟩
    · cases hnil
    · exact ⟨pack, hp, b, hb, by rw [ht]; decide, heq⟩
  · rintro ⟨pack, hp, b, hb, hne, heq⟩
    cases ht : b.blobType with
    | data => exact Or.inl (Or.inr ⟨pack, hp, b, hb, ht, heq⟩)
    | tree => exact Or.inr (Or.inr ⟨pack, hp, b, hb, ht, heq⟩)
    | padding => exact absurd ht hne

theorem mem_blobsOfPack {m : BlobMap} {t : BlobType} {k : Nat} {b : IndexFileBlob} :
    b ∈ blobsOfPack m t k ↔ b.blobType = t ∧ (b.id, b.location k) ∈ m.toList := by
  rw [blobsOfPack, List.mem_map]
  constructor
  · rintro ⟨⟨id, loc⟩, hmem, rfl⟩
    rw [List.mem_filter, decide_eq_true_eq] at hmem
    refine ⟨rfl, ?_⟩
    simp only [PackedBlobDescriptor.location]
    rw [← hmem.2]
    exact hmem.1
  · rintro ⟨ht, hmem⟩
    refine ⟨_, List.mem_filter.mpr ⟨hmem, by simp [PackedBlobDescriptor.location]⟩, ?_⟩
    simp only [PackedBlobDescriptor.location, ← ht]

/-- The blobs that a file lists for a pack are the entries of the index in that pack. -/
theorem mem_blobsOfPack_iff (ix : Index) (m : BlobMap) (t : BlobType) (id packId : ID)
    (l : BlobLocator) :
    (∃ k, ix.packIds.getValue k = some packId ∧
        ∃ b ∈ blobsOfPack m t k, id = b.id ∧ l = b.locator packId) ↔
      l.packId = packId ∧ ∃ loc, (id, loc) ∈ m.toList ∧ ix.resolveLocation loc t = some l := by
  constructor
  · rintro ⟨k, hk, b, hb, rfl, rfl⟩
    obtain ⟨ht, hmem⟩ := mem_blobsOfPack.mp hb
    refine ⟨rfl, b.location k, hmem, ?_⟩
    rw [resolveLocation_eq_some]
    exact ⟨hk, rfl, rfl, rfl, ht⟩
  · rintro ⟨hpack, loc, hmem, hres⟩
    rw [resolveLocation_eq_some] at hres
    obtain ⟨hk, hoff, hlen, hraw, ht⟩ := hres
    refine ⟨loc.packArrayIndex, by rw [hk, hpack], ⟨id, t, loc.offset, loc.length, loc.rawLength⟩,
      mem_blobsOfPack.mpr ⟨rfl, hmem⟩, rfl, ?_⟩
    simp only [PackedBlobDescriptor.locator, hoff, hlen, hraw, ← hpack, ← ht]

/-- **The file of an index has the entries of the index.** -/
theorem mem_entries_toFile : (id, l) ∈ ix.toFile.entries ↔ (id, l) ∈ ix.iterIds := by
  have hdata := mem_blobsOfPack_iff ix ix.dataIds .data id l.packId l
  have htree := mem_blobsOfPack_iff ix ix.treeIds .tree id l.packId l
  rw [mem_iterIds, IndexFile.mem_entries]
  constructor
  · rintro ⟨pack, hpack, b, hb, _, rfl, hl⟩
    simp only [toFile, mem_sortByKey, List.mem_filter] at hpack
    obtain ⟨k, hk, rfl⟩ := List.mem_mapIdx.mp hpack.1
    have hpackId : l.packId = ix.packIds.values[k] := by rw [hl]; rfl
    have hval : ix.packIds.getValue k = some l.packId := by
      rw [hpackId]
      exact List.getElem?_eq_getElem hk
    have hl' : l = b.locator l.packId := by rw [hpackId]; exact hl
    simp only [mem_sortByKey, List.mem_append] at hb
    rcases hb with hb | hb
    · exact Or.inl (hdata.mp ⟨k, hval, b, hb, rfl, hl'⟩).2
    · exact Or.inr (htree.mp ⟨k, hval, b, hb, rfl, hl'⟩).2
  · intro h
    obtain ⟨k, hk, b, hb, hid, hl⟩ : ∃ k, ix.packIds.getValue k = some l.packId ∧
        ∃ b ∈ blobsOfPack ix.dataIds .data k ++ blobsOfPack ix.treeIds .tree k,
          id = b.id ∧ l = b.locator l.packId := by
      rcases h with h | h
      · obtain ⟨k, hk, b, hb, heq⟩ := hdata.mpr ⟨rfl, h⟩
        exact ⟨k, hk, b, List.mem_append_left _ hb, heq⟩
      · obtain ⟨k, hk, b, hb, heq⟩ := htree.mpr ⟨rfl, h⟩
        exact ⟨k, hk, b, List.mem_append_right _ hb, heq⟩
    obtain ⟨hlt, hval⟩ := List.getElem?_eq_some_iff.mp hk
    have hmem : b ∈ sortByKey PackedBlobDescriptor.id
        (blobsOfPack ix.dataIds .data k ++ blobsOfPack ix.treeIds .tree k) := mem_sortByKey.mpr hb
    refine ⟨⟨l.packId, sortByKey PackedBlobDescriptor.id
      (blobsOfPack ix.dataIds .data k ++ blobsOfPack ix.treeIds .tree k)⟩, ?_, b, hmem, ?_, hid, hl⟩
    · simp only [toFile, mem_sortByKey, List.mem_filter, decide_eq_true_eq]
      exact ⟨List.mem_mapIdx.mpr ⟨k, hlt, by rw [hval]⟩, List.ne_nil_of_mem hmem⟩
    · rcases List.mem_append.mp hb with h | h
      · rw [(mem_blobsOfPack.mp h).1]
        decide
      · rw [(mem_blobsOfPack.mp h).1]
        decide

end File

end Index

/-! ## Persisting changes no answer -/

/-- `BlobMap::freeze`. -/
def BlobMap.freeze (env : IndexEnv) (m : BlobMap) : BlobMap :=
  match m with
  | mutable map => ofList env (Table.toList map)
  | immutable vec bf sorted known => immutable vec bf sorted known

theorem BlobMap.mem_toList_freeze {env : IndexEnv} {m : BlobMap} {e : ID × BlobLocationInternal} :
    e ∈ (m.freeze env).toList ↔ e ∈ m.toList := by
  cases m with
  | mutable map => exact mem_toList_ofList
  | immutable vec bf sorted known => rfl

namespace Index

/-- The end of `Index::persist`: both maps are frozen. -/
def freeze (env : IndexEnv) (ix : Index) : Index :=
  { ix with
    dataIds := ix.dataIds.freeze env
    treeIds := ix.treeIds.freeze env
    inRange := by
      intro e he
      simp only [List.mem_append, BlobMap.mem_toList_freeze] at he
      exact ix.inRange e (List.mem_append.mpr he) }

/-- The two indices answer every lookup alike. -/
def SameAnswers (env : IndexEnv) (ix ix' : Index) : Prop :=
  ∀ id, ix'.get env id = ix.get env id ∧ ix'.getData env id = ix.getData env id ∧
    ix'.getTree env id = ix.getTree env id ∧ ix'.contains env id = ix.contains env id

/-- The index has at most one entry for an ID and a type. -/
def Functional (ix : Index) : Prop :=
  ∀ id l l', (id, l) ∈ ix.iterIds → (id, l') ∈ ix.iterIds → l.blobType = l'.blobType → l = l'

section Answers

variable {env : IndexEnv} {ix ix' : Index}

/-- A map under construction has one location for an ID. -/
theorem IsMutable.functional (h : ix.IsMutable) : ix.Functional := by
  -- the keys of a mutable map are unique
  have hmap : ∀ {m : BlobMap}, m.IsMutable → ∀ {id loc loc'}, (id, loc) ∈ m.toList →
      (id, loc') ∈ m.toList → loc = loc' := by
    intro m hm id loc loc' hloc hloc'
    cases m with
    | mutable map =>
      have hlook := Table.mem_toList.mp hloc
      rw [Table.mem_toList.mp hloc'] at hlook
      exact (Option.some.inj hlook).symm
    | immutable vec bf sorted known => exact hm.elim
  intro id l l' hl hl' ht
  rcases mem_iterIds.mp hl with ⟨loc, hloc, hres⟩ | ⟨loc, hloc, hres⟩ <;>
    rcases mem_iterIds.mp hl' with ⟨loc', hloc', hres'⟩ | ⟨loc', hloc', hres'⟩
  · rw [hmap h.1 hloc hloc', hres'] at hres
    exact (Option.some.inj hres).symm
  · rw [blobType_of_resolveLocation hres, blobType_of_resolveLocation hres'] at ht
    cases ht
  · rw [blobType_of_resolveLocation hres, blobType_of_resolveLocation hres'] at ht
    cases ht
  · rw [hmap h.2 hloc hloc', hres'] at hres
    exact (Option.some.inj hres).symm

/-- Two lookups agree when each answers with an entry of one type, both find one when there is one,
and there is at most one. -/
theorem lookup_eq (get get' : ID → Option BlobLocator) (t : BlobType) (hf : ix.Functional)
    (hsame : ∀ id l, (id, l) ∈ ix'.iterIds ↔ (id, l) ∈ ix.iterIds)
    (hmem : ∀ {id l}, get id = some l → (id, l) ∈ ix.iterIds ∧ l.blobType = t)
    (hmem' : ∀ {id l}, get' id = some l → (id, l) ∈ ix'.iterIds ∧ l.blobType = t)
    (hsome : ∀ {id l}, (id, l) ∈ ix.iterIds → l.blobType = t → (get id).isSome = true)
    (hsome' : ∀ {id l}, (id, l) ∈ ix'.iterIds → l.blobType = t → (get' id).isSome = true)
    (id : ID) : get' id = get id := by
  cases h : get id with
  | none =>
    cases h' : get' id with
    | none => rfl
    | some l' =>
      obtain ⟨hl', ht'⟩ := hmem' h'
      have hfound := hsome ((hsame id l').mp hl') ht'
      rw [h] at hfound
      cases hfound
  | some l =>
    obtain ⟨hl, ht⟩ := hmem h
    obtain ⟨l', h'⟩ := Option.isSome_iff_exists.mp (hsome' ((hsame id l).mpr hl) ht)
    obtain ⟨hl', ht'⟩ := hmem' h'
    rw [h', hf id l l' hl ((hsame id l').mp hl') (ht.trans ht'.symm)]

/-- An index with the same entries answers alike, if no lookup has a choice. -/
theorem sameAnswers_of_mem_iff (hf : ix.Functional)
    (hsame : ∀ id l, (id, l) ∈ ix'.iterIds ↔ (id, l) ∈ ix.iterIds) : SameAnswers env ix ix' := by
  have hdata := lookup_eq (ix.getData env) (ix'.getData env) .data hf hsame
    mem_of_getData mem_of_getData getData_isSome getData_isSome
  have htree := lookup_eq (ix.getTree env) (ix'.getTree env) .tree hf hsame
    mem_of_getTree mem_of_getTree getTree_isSome getTree_isSome
  intro id
  refine ⟨?_, hdata id, htree id, ?_⟩
  · rw [get, get, hdata id, htree id]
  · rw [Bool.eq_iff_iff, contains_iff, contains_iff]
    exact exists_congr fun l => hsame id l

theorem iterIds_freeze {id : ID} {l : BlobLocator} :
    (id, l) ∈ (ix.freeze env).iterIds ↔ (id, l) ∈ ix.iterIds := by
  rw [mem_iterIds, mem_iterIds]
  simp only [freeze, BlobMap.mem_toList_freeze]
  rfl

/-- **Persisting an index changes no answer**: neither the index that a load makes of its file nor
the frozen index in memory answers any lookup differently. -/
theorem persist_keeps_answers (env : IndexEnv) (n m : Nat) (fid : ID)
    (packs : List (ID × List PackedBlobDescriptor)) :
    let ix := packs.foldl (fun ix pack => ix.addPack pack.1 pack.2) (.new n)
    SameAnswers env ix (fromIndexFile env m ix.toFile fid) ∧ SameAnswers env ix (ix.freeze env) := by
  intro ix
  have hmut : ix.IsMutable := by
    have hfold : ∀ (packs : List (ID × List PackedBlobDescriptor)) (ix : Index), ix.IsMutable →
        (packs.foldl (fun ix pack => ix.addPack pack.1 pack.2) ix).IsMutable := by
      intro packs
      induction packs with
      | nil => exact fun _ h => h
      | cons pack packs ih => exact fun ix h => ih _ (h.addPack pack.1 pack.2)
    exact hfold packs (.new n) ⟨trivial, trivial⟩
  refine ⟨sameAnswers_of_mem_iff hmut.functional fun id l => ?_,
    sameAnswers_of_mem_iff hmut.functional fun id l => iterIds_freeze⟩
  exact mem_iterIds_fromIndexFile.trans mem_entries_toFile

end Answers

end Index

end Mapache
