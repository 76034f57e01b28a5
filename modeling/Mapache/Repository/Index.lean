import Mapache.Lib.Table
import Mapache.Repository.Packer
import Mapache.Utils.Collections

/-!
# One index

`Index` of `repository/index.rs`: a data map and a tree map from blob IDs to locations, with the
pack IDs kept once in an `IndexSet`. A map under construction is a hash map; a loaded one is a
sorted vector behind a Bloom filter, and both facts (the order, and that the filter knows every key)
are part of the type. So is the fact that every location names a pack of the index.

An index is used through its list of entries `iterIds`. The lookups answer with an entry and find
one whenever there is one (`mem_of_get`, `get_isSome`, and the typed versions), and adding a pack
adds its descriptors as entries (`mem_addPack`, `addPack_complete`, `mem_addPack_self`).
-/

set_option autoImplicit false

namespace Mapache

open Lib

/-! ## Locations -/

/-- Where a blob lies, with the number of its pack in the index. -/
structure BlobLocationInternal where
  packArrayIndex : Nat
  offset : Nat
  length : Nat
  rawLength : Nat
  deriving DecidableEq

/-- Where a blob lies, with its pack ID. -/
structure BlobLocator where
  packId : ID
  offset : Nat
  length : Nat
  rawLength : Nat
  blobType : BlobType
  deriving DecidableEq

/-- The locator of a descriptor in a pack. -/
def PackedBlobDescriptor.locator (d : PackedBlobDescriptor) (packId : ID) : BlobLocator :=
  ⟨packId, d.offset, d.length, d.rawLength, d.blobType⟩

/-- The location of a descriptor in the pack with the given number. -/
def PackedBlobDescriptor.location (d : PackedBlobDescriptor) (k : Nat) : BlobLocationInternal :=
  ⟨k, d.offset, d.length, d.rawLength⟩

/-- `slice::binary_search_by_key` on a vector sorted by ID, followed by the access. With several
matches any one of them may be returned. -/
structure BinarySearch where
  find : List (ID × BlobLocationInternal) → ID → Option BlobLocationInternal
  sound : ∀ {vec id loc}, find vec id = some loc → (id, loc) ∈ vec
  complete : ∀ {vec id loc}, vec.Pairwise (fun a b => a.1 ≤ b.1) → (id, loc) ∈ vec →
    (find vec id).isSome = true

/-- What the index code takes from the standard library and from the runtime configuration. -/
structure IndexEnv where
  search : BinarySearch
  bloomShape : Nat → BloomShape
  blobsPerIndexFile : Nat

/-! ## Blob maps -/

/-- The map from blob IDs to locations: a hash map while the index is built, a sorted vector with a
Bloom filter once it is loaded. -/
inductive BlobMap where
  | mutable (map : Table ID BlobLocationInternal)
  | immutable (vec : List (ID × BlobLocationInternal)) (bf : BloomFilter)
      (sorted : vec.Pairwise fun a b => a.1 ≤ b.1) (known : ∀ e ∈ vec, bf.contains e.1 = true)

namespace BlobMap

/-- `BlobMap::iter`. -/
def toList : BlobMap → List (ID × BlobLocationInternal)
  | mutable map => Table.toList map
  | immutable vec _ _ _ => vec

/-- `BlobMap::get`. -/
def get (env : IndexEnv) (m : BlobMap) (id : ID) : Option BlobLocationInternal :=
  match m with
  | mutable map => map.lookup id
  | immutable vec bf _ _ => if bf.contains id then env.search.find vec id else none

/-- `BlobMap::contains`. -/
def contains (env : IndexEnv) (m : BlobMap) (id : ID) : Bool :=
  match m with
  | mutable map => (map.lookup id).isSome
  | immutable vec bf _ _ => bf.contains id && (env.search.find vec id).isSome

/-- `BlobMap::insert`, which only logs an error on a loaded map. -/
def insert (m : BlobMap) (id : ID) (loc : BlobLocationInternal) : BlobMap :=
  match m with
  | mutable map => mutable (map.insert id loc)
  | immutable vec bf sorted known => immutable vec bf sorted known

/-- `BlobMap::len`. -/
def len (m : BlobMap) : Nat := m.toList.length

/-- A sorted vector with a Bloom filter of its keys. -/
def ofList (env : IndexEnv) (entries : List (ID × BlobLocationInternal)) : BlobMap :=
  let vec := sortByKey Prod.fst entries
  immutable vec ((BloomFilter.new (env.bloomShape entries.length)).insertAll (vec.map Prod.fst))
    (pairwise_sortByKey Prod.fst entries)
    fun _ he => BloomFilter.contains_insertAll (List.mem_map_of_mem he)

/-- The map accepts entries. -/
def IsMutable : BlobMap → Prop
  | mutable _ => True
  | immutable _ _ _ _ => False

section Lookup

variable {env : IndexEnv} {m : BlobMap} {id : ID} {loc : BlobLocationInternal}

theorem mem_of_get (h : m.get env id = some loc) : (id, loc) ∈ m.toList := by
  cases m with
  | mutable map => exact Table.mem_toList.mpr h
  | immutable vec bf sorted known =>
    simp only [get] at h
    split at h
    · exact env.search.sound h
    · cases h

theorem get_isSome_of_mem (env : IndexEnv) (h : (id, loc) ∈ m.toList) :
    (m.get env id).isSome = true := by
  cases m with
  | mutable map =>
    have hlook := Table.mem_toList.mp h
    simp [get, hlook]
  | immutable vec bf sorted known =>
    have hknown : bf.contains id = true := known (id, loc) h
    simp only [get, hknown, if_true]
    exact env.search.complete sorted h

theorem contains_eq (m : BlobMap) (id : ID) : m.contains env id = (m.get env id).isSome := by
  cases m with
  | mutable map => rfl
  | immutable vec bf sorted known =>
    simp only [contains, get]
    split
    · simp [*]
    · simp [*]

end Lookup

section Insert

variable {m : BlobMap} {id id' : ID} {loc loc' : BlobLocationInternal}

theorem mem_insert_sound (h : (id', loc') ∈ (m.insert id loc).toList) :
    (id', loc') ∈ m.toList ∨ (id' = id ∧ loc' = loc) := by
  cases m with
  | mutable map =>
    simp only [insert, toList, Table.mem_toList] at h ⊢
    rw [Table.lookup_insert_eq_ite] at h
    split at h
    · exact Or.inr ⟨‹_›, (Option.some.inj h).symm⟩
    · exact Or.inl h
  | immutable vec bf sorted known => exact Or.inl h

theorem mem_insert_self (hm : m.IsMutable) : (id, loc) ∈ (m.insert id loc).toList := by
  cases m with
  | mutable map => exact Table.mem_toList.mpr (AList.lookup_insert _)
  | immutable vec bf sorted known => exact hm.elim

/-- An insertion may replace the location of a blob, but it does not lose the blob. -/
theorem mem_insert_complete (h : (id', loc') ∈ m.toList) :
    ∃ loc'', (id', loc'') ∈ (m.insert id loc).toList := by
  cases m with
  | mutable map =>
    simp only [insert, toList, Table.mem_toList] at h ⊢
    by_cases heq : id' = id
    · exact ⟨loc, by rw [heq, AList.lookup_insert]⟩
    · exact ⟨loc', by rw [AList.lookup_insert_ne heq]; exact h⟩
  | immutable vec bf sorted known => exact ⟨loc', h⟩

theorem IsMutable.insert (hm : m.IsMutable) : (m.insert id loc).IsMutable := by
  cases m with
  | mutable map => trivial
  | immutable vec bf sorted known => exact hm.elim

end Insert

theorem mem_toList_ofList {env : IndexEnv} {entries : List (ID × BlobLocationInternal)}
    {e : ID × BlobLocationInternal} : e ∈ (ofList env entries).toList ↔ e ∈ entries :=
  mem_sortByKey

end BlobMap

/-! ## Indices -/

/-- The life of an index. -/
inductive IndexStatus where
  /-- Accepting entries. -/
  | pending
  /-- Read-only but not in a file. -/
  | finalized
  /-- In the file with this ID. -/
  | persisted (id : ID)
  deriving DecidableEq

/-- The mapping of blob IDs to their locations. Every location names a pack of the index. -/
structure Index where
  instanceId : Nat
  dataIds : BlobMap
  treeIds : BlobMap
  packIds : IndexSet ID
  status : IndexStatus
  inRange : ∀ e ∈ dataIds.toList ++ treeIds.toList,
    (packIds.getValue e.2.packArrayIndex).isSome = true

namespace Index

/-- `Index::new`, with the instance ID it draws. -/
def new (instanceId : Nat) : Index :=
  ⟨instanceId, .mutable ∅, .mutable ∅, .new, .pending, by
    intro e he
    simp [BlobMap.toList, Table.toList] at he⟩

/-- `Index::is_pending`. -/
def isPending (ix : Index) : Bool := ix.status = .pending

/-- `Index::is_persisted`. -/
def isPersisted (ix : Index) : Bool :=
  match ix.status with
  | .persisted _ => true
  | _ => false

/-- `Index::id`. -/
def id (ix : Index) : Option ID :=
  match ix.status with
  | .persisted id => some id
  | _ => none

/-- `Index::set_status`. -/
def setStatus (ix : Index) (status : IndexStatus) : Index := { ix with status := status }

/-- `Index::finalize`. -/
def finalize (ix : Index) : Index := ix.setStatus .finalized

/-- `Index::num_blobs`. -/
def numBlobs (ix : Index) : Nat := ix.dataIds.len + ix.treeIds.len

/-- `Index::is_empty`. -/
def isEmpty (ix : Index) : Bool := ix.numBlobs = 0

/-- `Index::is_full`. -/
def isFull (env : IndexEnv) (ix : Index) : Bool := ix.numBlobs ≥ env.blobsPerIndexFile

/-- `Index::resolve_location`. -/
def resolveLocation (ix : Index) (loc : BlobLocationInternal) (t : BlobType) :
    Option BlobLocator :=
  (ix.packIds.getValue loc.packArrayIndex).map fun packId =>
    ⟨packId, loc.offset, loc.length, loc.rawLength, t⟩

/-- The lookup of `MasterIndex::get_data` in one index. -/
def getData (env : IndexEnv) (ix : Index) (id : ID) : Option BlobLocator :=
  (ix.dataIds.get env id).bind fun loc => ix.resolveLocation loc .data

/-- The lookup of `MasterIndex::get_tree` in one index. -/
def getTree (env : IndexEnv) (ix : Index) (id : ID) : Option BlobLocator :=
  (ix.treeIds.get env id).bind fun loc => ix.resolveLocation loc .tree

/-- `Index::get`: data first, then trees. -/
def get (env : IndexEnv) (ix : Index) (id : ID) : Option BlobLocator :=
  (ix.getData env id).or (ix.getTree env id)

/-- `Index::contains`. -/
def contains (env : IndexEnv) (ix : Index) (id : ID) : Bool :=
  ix.dataIds.contains env id || ix.treeIds.contains env id

/-- The entries of one map of an index. -/
def resolveAll (ix : Index) (m : BlobMap) (t : BlobType) : List (ID × BlobLocator) :=
  m.toList.filterMap fun e => (ix.resolveLocation e.2 t).map fun l => (e.1, l)

/-- `Index::iter_ids`. -/
def iterIds (ix : Index) : List (ID × BlobLocator) :=
  ix.resolveAll ix.dataIds .data ++ ix.resolveAll ix.treeIds .tree

section Entries

variable {env : IndexEnv} {ix : Index} {id : ID} {l : BlobLocator}

theorem mem_resolveAll {m : BlobMap} {t : BlobType} :
    (id, l) ∈ ix.resolveAll m t ↔ ∃ loc, (id, loc) ∈ m.toList ∧ ix.resolveLocation loc t = some l := by
  rw [resolveAll, List.mem_filterMap]
  constructor
  · rintro ⟨⟨id', loc⟩, hmem, hres⟩
    rw [Option.map_eq_some_iff] at hres
    obtain ⟨l', hl', heq⟩ := hres
    cases heq
    exact ⟨loc, hmem, hl'⟩
  · rintro ⟨loc, hmem, hres⟩
    exact ⟨(id, loc), hmem, by rw [hres]; rfl⟩

/-- The entries of an index are those of its two maps. -/
theorem mem_iterIds : (id, l) ∈ ix.iterIds ↔
    (∃ loc, (id, loc) ∈ ix.dataIds.toList ∧ ix.resolveLocation loc .data = some l) ∨
      ∃ loc, (id, loc) ∈ ix.treeIds.toList ∧ ix.resolveLocation loc .tree = some l := by
  rw [iterIds, List.mem_append, mem_resolveAll, mem_resolveAll]

theorem resolveLocation_eq_some {loc : BlobLocationInternal} {t : BlobType} :
    ix.resolveLocation loc t = some l ↔ ix.packIds.getValue loc.packArrayIndex = some l.packId ∧
      loc.offset = l.offset ∧ loc.length = l.length ∧ loc.rawLength = l.rawLength ∧
      l.blobType = t := by
  rw [resolveLocation, Option.map_eq_some_iff]
  constructor
  · rintro ⟨packId, hpack, rfl⟩
    exact ⟨hpack, rfl, rfl, rfl, rfl⟩
  · rintro ⟨hpack, hoff, hlen, hraw, ht⟩
    refine ⟨l.packId, hpack, ?_⟩
    rw [hoff, hlen, hraw, ← ht]

theorem blobType_of_resolveLocation {loc : BlobLocationInternal} {t : BlobType}
    (h : ix.resolveLocation loc t = some l) : l.blobType = t :=
  (resolveLocation_eq_some.mp h).2.2.2.2

theorem resolveLocation_isSome (ix : Index) {loc : BlobLocationInternal} (t : BlobType)
    (h : (id, loc) ∈ ix.dataIds.toList ++ ix.treeIds.toList) :
    ∃ l, ix.resolveLocation loc t = some l := by
  have hrange := ix.inRange (id, loc) h
  rw [Option.isSome_iff_exists] at hrange
  obtain ⟨packId, hpack⟩ := hrange
  exact ⟨⟨packId, loc.offset, loc.length, loc.rawLength, t⟩, by simp [resolveLocation, hpack]⟩

/-- An index without a file has no ID. -/
theorem id_eq_none (h : ix.isPersisted = false) : ix.id = none := by
  unfold isPersisted at h
  unfold Index.id
  cases hs : ix.status with
  | persisted fid =>
    rw [hs] at h
    cases h
  | pending | finalized => rfl

/-- No entry is of the padding type. -/
theorem blobType_ne_padding (h : (id, l) ∈ ix.iterIds) : l.blobType ≠ .padding := by
  rcases mem_iterIds.mp h with ⟨loc, _, hres⟩ | ⟨loc, _, hres⟩
  · rw [blobType_of_resolveLocation hres]
    decide
  · rw [blobType_of_resolveLocation hres]
    decide

theorem mem_of_getData (h : ix.getData env id = some l) :
    (id, l) ∈ ix.iterIds ∧ l.blobType = .data := by
  rw [getData, Option.bind_eq_some_iff] at h
  obtain ⟨loc, hget, hres⟩ := h
  exact ⟨mem_iterIds.mpr (Or.inl ⟨loc, BlobMap.mem_of_get hget, hres⟩),
    blobType_of_resolveLocation hres⟩

theorem mem_of_getTree (h : ix.getTree env id = some l) :
    (id, l) ∈ ix.iterIds ∧ l.blobType = .tree := by
  rw [getTree, Option.bind_eq_some_iff] at h
  obtain ⟨loc, hget, hres⟩ := h
  exact ⟨mem_iterIds.mpr (Or.inr ⟨loc, BlobMap.mem_of_get hget, hres⟩),
    blobType_of_resolveLocation hres⟩

theorem getData_isSome (h : (id, l) ∈ ix.iterIds) (ht : l.blobType = .data) :
    (ix.getData env id).isSome = true := by
  rcases mem_iterIds.mp h with ⟨loc, hmem, _⟩ | ⟨loc, _, hres⟩
  · obtain ⟨loc', hget⟩ := Option.isSome_iff_exists.mp (BlobMap.get_isSome_of_mem env hmem)
    obtain ⟨l', hl'⟩ := ix.resolveLocation_isSome .data
      (List.mem_append_left _ (BlobMap.mem_of_get hget))
    simp [getData, hget, hl']
  · rw [blobType_of_resolveLocation hres] at ht
    cases ht

theorem getTree_isSome (h : (id, l) ∈ ix.iterIds) (ht : l.blobType = .tree) :
    (ix.getTree env id).isSome = true := by
  rcases mem_iterIds.mp h with ⟨loc, _, hres⟩ | ⟨loc, hmem, _⟩
  · rw [blobType_of_resolveLocation hres] at ht
    cases ht
  · obtain ⟨loc', hget⟩ := Option.isSome_iff_exists.mp (BlobMap.get_isSome_of_mem env hmem)
    obtain ⟨l', hl'⟩ := ix.resolveLocation_isSome .tree
      (List.mem_append_right _ (BlobMap.mem_of_get hget))
    simp [getTree, hget, hl']

/-- A lookup answers with an entry. -/
theorem mem_of_get (h : ix.get env id = some l) : (id, l) ∈ ix.iterIds := by
  rw [get, Option.or_eq_some_iff] at h
  rcases h with hdata | ⟨_, htree⟩
  · exact (mem_of_getData hdata).1
  · exact (mem_of_getTree htree).1

/-- A lookup finds a blob that has an entry. -/
theorem get_isSome (h : (id, l) ∈ ix.iterIds) : (ix.get env id).isSome = true := by
  rw [get, Option.isSome_or, Bool.or_eq_true]
  cases ht : l.blobType with
  | data => exact Or.inl (getData_isSome h ht)
  | tree => exact Or.inr (getTree_isSome h ht)
  | padding => exact absurd ht (blobType_ne_padding h)

/-- An index contains the blobs of its entries. -/
theorem contains_iff : ix.contains env id = true ↔ ∃ l, (id, l) ∈ ix.iterIds := by
  rw [contains, BlobMap.contains_eq, BlobMap.contains_eq, Bool.or_eq_true]
  constructor
  · rintro (hdata | htree)
    · obtain ⟨loc, hget⟩ := Option.isSome_iff_exists.mp hdata
      have hmem := BlobMap.mem_of_get hget
      obtain ⟨l, hl⟩ := ix.resolveLocation_isSome .data (List.mem_append_left _ hmem)
      exact ⟨l, mem_iterIds.mpr (Or.inl ⟨loc, hmem, hl⟩)⟩
    · obtain ⟨loc, hget⟩ := Option.isSome_iff_exists.mp htree
      have hmem := BlobMap.mem_of_get hget
      obtain ⟨l, hl⟩ := ix.resolveLocation_isSome .tree (List.mem_append_right _ hmem)
      exact ⟨l, mem_iterIds.mpr (Or.inr ⟨loc, hmem, hl⟩)⟩
  · rintro ⟨l, hl⟩
    rcases mem_iterIds.mp hl with ⟨loc, hmem, _⟩ | ⟨loc, hmem, _⟩
    · exact Or.inl (BlobMap.get_isSome_of_mem env hmem)
    · exact Or.inr (BlobMap.get_isSome_of_mem env hmem)

/-- An index without blobs has no entries. -/
theorem iterIds_eq_nil_of_isEmpty (h : ix.isEmpty = true) : ix.iterIds = [] := by
  simp only [isEmpty, numBlobs, BlobMap.len, decide_eq_true_eq, Nat.add_eq_zero_iff,
    List.length_eq_zero_iff] at h
  simp [iterIds, resolveAll, h.1, h.2]

@[simp] theorem iterIds_setStatus (status : IndexStatus) :
    (ix.setStatus status).iterIds = ix.iterIds := rfl

@[simp] theorem iterIds_new (n : Nat) : (Index.new n).iterIds = [] := rfl

end Entries

/-! ### Adding a pack -/

/-- The index with a pack ID it may not have had. -/
def withPack (ix : Index) (packId : ID) : Index :=
  { ix with
    packIds := (ix.packIds.insert packId).1
    inRange := by
      intro e he
      obtain ⟨p, hp⟩ := Option.isSome_iff_exists.mp (ix.inRange e he)
      rw [IndexSet.getValue_insert_of_some packId hp]
      rfl }

/-- One turn of the loop of `add_pack`, for the pack with number `k`. -/
def addBlob (ix : Index) (k : Nat) (hk : (ix.packIds.getValue k).isSome = true)
    (d : PackedBlobDescriptor) : Index :=
  match d.blobType with
  | .padding => ix
  | .data =>
    { ix with
      dataIds := ix.dataIds.insert d.id (d.location k)
      inRange := by
        intro e he
        rcases List.mem_append.mp he with hdata | htree
        · rcases BlobMap.mem_insert_sound hdata with hold | ⟨_, hloc⟩
          · exact ix.inRange e (List.mem_append_left _ hold)
          · rw [hloc]
            exact hk
        · exact ix.inRange e (List.mem_append_right _ htree) }
  | .tree =>
    { ix with
      treeIds := ix.treeIds.insert d.id (d.location k)
      inRange := by
        intro e he
        rcases List.mem_append.mp he with hdata | htree
        · exact ix.inRange e (List.mem_append_left _ hdata)
        · rcases BlobMap.mem_insert_sound htree with hold | ⟨_, hloc⟩
          · exact ix.inRange e (List.mem_append_right _ hold)
          · rw [hloc]
            exact hk }

theorem addBlob_packIds (ix : Index) (k : Nat) (hk : (ix.packIds.getValue k).isSome = true)
    (d : PackedBlobDescriptor) : (ix.addBlob k hk d).packIds = ix.packIds := by
  unfold addBlob
  split <;> rfl

/-- The loop of `add_pack`. -/
def addBlobs (ix : Index) (k : Nat) (hk : (ix.packIds.getValue k).isSome = true) :
    List PackedBlobDescriptor → Index
  | [] => ix
  | d :: ds => (ix.addBlob k hk d).addBlobs k (by rw [addBlob_packIds]; exact hk) ds

/-- `Index::add_pack`. -/
def addPack (ix : Index) (packId : ID) (ds : List PackedBlobDescriptor) : Index :=
  (ix.withPack packId).addBlobs (ix.packIds.insert packId).2
    (by rw [Option.isSome_iff_exists]; exact ⟨packId, IndexSet.getValue_insert _ _⟩) ds

/-- Both maps accept entries. -/
def IsMutable (ix : Index) : Prop := ix.dataIds.IsMutable ∧ ix.treeIds.IsMutable

section AddPack

variable {ix : Index} {packId id : ID} {l : BlobLocator} {k : Nat}

theorem iterIds_withPack_sound (h : (id, l) ∈ (ix.withPack packId).iterIds) :
    (id, l) ∈ ix.iterIds := by
  have hres : ∀ {loc t}, (id, loc) ∈ ix.dataIds.toList ++ ix.treeIds.toList →
      (ix.withPack packId).resolveLocation loc t = some l → ix.resolveLocation loc t = some l := by
    intro loc t hmem hl
    obtain ⟨l', hl'⟩ := ix.resolveLocation_isSome t hmem
    rw [resolveLocation_eq_some] at hl hl'
    have hpack : l'.packId = l.packId :=
      Option.some.inj ((IndexSet.getValue_insert_of_some packId hl'.1).symm.trans hl.1)
    rw [resolveLocation_eq_some, ← hpack]
    exact ⟨hl'.1, hl.2⟩
  rcases mem_iterIds.mp h with ⟨loc, hmem, hl⟩ | ⟨loc, hmem, hl⟩
  · exact mem_iterIds.mpr (Or.inl ⟨loc, hmem, hres (List.mem_append_left _ hmem) hl⟩)
  · exact mem_iterIds.mpr (Or.inr ⟨loc, hmem, hres (List.mem_append_right _ hmem) hl⟩)

theorem iterIds_withPack_complete (h : (id, l) ∈ ix.iterIds) :
    (id, l) ∈ (ix.withPack packId).iterIds := by
  have hres : ∀ {loc t}, ix.resolveLocation loc t = some l →
      (ix.withPack packId).resolveLocation loc t = some l := by
    intro loc t hl
    rw [resolveLocation_eq_some] at hl ⊢
    exact ⟨IndexSet.getValue_insert_of_some packId hl.1, hl.2⟩
  rcases mem_iterIds.mp h with ⟨loc, hmem, hl⟩ | ⟨loc, hmem, hl⟩
  · exact mem_iterIds.mpr (Or.inl ⟨loc, hmem, hres hl⟩)
  · exact mem_iterIds.mpr (Or.inr ⟨loc, hmem, hres hl⟩)

variable (hk : (ix.packIds.getValue k).isSome = true)

theorem resolveLocation_addBlob (d : PackedBlobDescriptor) (loc : BlobLocationInternal)
    (t : BlobType) : (ix.addBlob k hk d).resolveLocation loc t = ix.resolveLocation loc t := by
  rw [resolveLocation, addBlob_packIds]
  rfl

/-- An entry after one descriptor is an old one or that of the descriptor. -/
theorem mem_addBlob {d : PackedBlobDescriptor} (hpack : ix.packIds.getValue k = some packId)
    (h : (id, l) ∈ (ix.addBlob k hk d).iterIds) :
    (id, l) ∈ ix.iterIds ∨ (d.blobType ≠ .padding ∧ id = d.id ∧ l = d.locator packId) := by
  -- the new location resolves to the locator of the descriptor
  have hnew : ∀ t, ix.resolveLocation (d.location k) t = some l → d.blobType = t →
      l = d.locator packId := by
    intro t hl ht
    simp only [resolveLocation, PackedBlobDescriptor.location, hpack, Option.map_some] at hl
    cases hl
    rw [← ht]
    rfl
  rw [mem_iterIds] at h
  simp only [resolveLocation_addBlob] at h
  cases ht : d.blobType with
  | padding =>
    simp only [addBlob, ht] at h
    exact Or.inl (mem_iterIds.mpr h)
  | data =>
    simp only [addBlob, ht] at h
    rcases h with ⟨loc, hmem, hl⟩ | htree
    · rcases BlobMap.mem_insert_sound hmem with hold | ⟨hid, hloc⟩
      · exact Or.inl (mem_iterIds.mpr (Or.inl ⟨loc, hold, hl⟩))
      · exact Or.inr ⟨by decide, hid, hnew .data (hloc ▸ hl) ht⟩
    · exact Or.inl (mem_iterIds.mpr (Or.inr htree))
  | tree =>
    simp only [addBlob, ht] at h
    rcases h with hdata | ⟨loc, hmem, hl⟩
    · exact Or.inl (mem_iterIds.mpr (Or.inl hdata))
    · rcases BlobMap.mem_insert_sound hmem with hold | ⟨hid, hloc⟩
      · exact Or.inl (mem_iterIds.mpr (Or.inr ⟨loc, hold, hl⟩))
      · exact Or.inr ⟨by decide, hid, hnew .tree (hloc ▸ hl) ht⟩

/-- A blob keeps an entry of its type when a descriptor is added. -/
theorem addBlob_complete (d : PackedBlobDescriptor) (h : (id, l) ∈ ix.iterIds) :
    ∃ l', (id, l') ∈ (ix.addBlob k hk d).iterIds ∧ l'.blobType = l.blobType := by
  -- an insertion into either map keeps a location for the blob
  have hmap : ∀ {m m' : BlobMap} {t loc}, (id, loc) ∈ m.toList → l.blobType = t →
      (∀ {loc}, (id, loc) ∈ m.toList → ∃ loc', (id, loc') ∈ m'.toList) →
      (∀ {e}, e ∈ m'.toList → e ∈ (ix.addBlob k hk d).dataIds.toList ++
        (ix.addBlob k hk d).treeIds.toList) →
      ∃ loc' l', (id, loc') ∈ m'.toList ∧ (ix.addBlob k hk d).resolveLocation loc' t = some l' ∧
        l'.blobType = l.blobType := by
    intro m m' t loc hmem ht hkeep hin
    obtain ⟨loc', hmem'⟩ := hkeep hmem
    obtain ⟨l', hl'⟩ := (ix.addBlob k hk d).resolveLocation_isSome t (hin hmem')
    exact ⟨loc', l', hmem', hl', (blobType_of_resolveLocation hl').trans ht.symm⟩
  have hkeepData : ∀ {loc}, (id, loc) ∈ ix.dataIds.toList →
      ∃ loc', (id, loc') ∈ (ix.addBlob k hk d).dataIds.toList := by
    intro loc hmem
    unfold addBlob
    split
    · exact ⟨loc, hmem⟩
    · exact BlobMap.mem_insert_complete hmem
    · exact ⟨loc, hmem⟩
  have hkeepTree : ∀ {loc}, (id, loc) ∈ ix.treeIds.toList →
      ∃ loc', (id, loc') ∈ (ix.addBlob k hk d).treeIds.toList := by
    intro loc hmem
    unfold addBlob
    split
    · exact ⟨loc, hmem⟩
    · exact ⟨loc, hmem⟩
    · exact BlobMap.mem_insert_complete hmem
  rcases mem_iterIds.mp h with ⟨loc, hmem, hl⟩ | ⟨loc, hmem, hl⟩
  · obtain ⟨loc', l', hmem', hl', ht⟩ := hmap hmem (blobType_of_resolveLocation hl) hkeepData
      (fun he => List.mem_append_left _ he)
    exact ⟨l', mem_iterIds.mpr (Or.inl ⟨loc', hmem', hl'⟩), ht⟩
  · obtain ⟨loc', l', hmem', hl', ht⟩ := hmap hmem (blobType_of_resolveLocation hl) hkeepTree
      (fun he => List.mem_append_right _ he)
    exact ⟨l', mem_iterIds.mpr (Or.inr ⟨loc', hmem', hl'⟩), ht⟩

/-- An index under construction takes up a descriptor. -/
theorem mem_addBlob_self {d : PackedBlobDescriptor} (hmut : ix.IsMutable)
    (hpack : ix.packIds.getValue k = some packId) (hd : d.blobType ≠ .padding) :
    (d.id, d.locator packId) ∈ (ix.addBlob k hk d).iterIds := by
  have hres : ix.resolveLocation (d.location k) d.blobType = some (d.locator packId) := by
    simp [resolveLocation, PackedBlobDescriptor.location, PackedBlobDescriptor.locator, hpack]
  rw [mem_iterIds]
  simp only [resolveLocation_addBlob]
  cases ht : d.blobType with
  | padding => exact absurd ht hd
  | data =>
    rw [ht] at hres
    refine Or.inl ⟨d.location k, ?_, hres⟩
    simp only [addBlob, ht]
    exact BlobMap.mem_insert_self hmut.1
  | tree =>
    rw [ht] at hres
    refine Or.inr ⟨d.location k, ?_, hres⟩
    simp only [addBlob, ht]
    exact BlobMap.mem_insert_self hmut.2

theorem IsMutable.addBlob (hmut : ix.IsMutable) (d : PackedBlobDescriptor) :
    (ix.addBlob k hk d).IsMutable := by
  unfold Index.addBlob
  split
  · exact hmut
  · exact ⟨hmut.1.insert, hmut.2⟩
  · exact ⟨hmut.1, hmut.2.insert⟩

/-- The loop of `add_pack`, by induction on the descriptors. -/
theorem mem_addBlobs {ds : List PackedBlobDescriptor} (hpack : ix.packIds.getValue k = some packId)
    (h : (id, l) ∈ (ix.addBlobs k hk ds).iterIds) :
    (id, l) ∈ ix.iterIds ∨
      ∃ d ∈ ds, d.blobType ≠ .padding ∧ id = d.id ∧ l = d.locator packId := by
  induction ds generalizing ix with
  | nil => exact Or.inl h
  | cons d ds ih =>
    rcases ih (by rw [addBlob_packIds]; exact hk) (by rw [addBlob_packIds]; exact hpack) h
      with hhead | ⟨d', hd', hrest⟩
    · rcases mem_addBlob hk hpack hhead with hold | hnew
      · exact Or.inl hold
      · exact Or.inr ⟨d, List.mem_cons_self, hnew⟩
    · exact Or.inr ⟨d', List.mem_cons_of_mem _ hd', hrest⟩

theorem addBlobs_complete (ds : List PackedBlobDescriptor) (h : (id, l) ∈ ix.iterIds) :
    ∃ l', (id, l') ∈ (ix.addBlobs k hk ds).iterIds ∧ l'.blobType = l.blobType := by
  induction ds generalizing ix l with
  | nil => exact ⟨l, h, rfl⟩
  | cons d ds ih =>
    obtain ⟨l', hmem, ht⟩ := addBlob_complete hk d h
    obtain ⟨l'', hmem', ht'⟩ := ih (by rw [addBlob_packIds]; exact hk) hmem
    exact ⟨l'', hmem', ht'.trans ht⟩

theorem mem_addBlobs_self {ds : List PackedBlobDescriptor} {d : PackedBlobDescriptor}
    (hmut : ix.IsMutable) (hpack : ix.packIds.getValue k = some packId) (hmem : d ∈ ds)
    (hd : d.blobType ≠ .padding) :
    ∃ l', (d.id, l') ∈ (ix.addBlobs k hk ds).iterIds ∧ l'.blobType = d.blobType := by
  induction ds generalizing ix with
  | nil => cases hmem
  | cons d' ds ih =>
    rcases List.mem_cons.mp hmem with rfl | htail
    · obtain ⟨l', hl', ht⟩ := addBlobs_complete (by rw [addBlob_packIds]; exact hk) ds
        (mem_addBlob_self hk hmut hpack hd)
      exact ⟨l', hl', ht⟩
    · exact ih (by rw [addBlob_packIds]; exact hk) (hmut.addBlob hk d')
        (by rw [addBlob_packIds]; exact hpack) htail

/-- An entry after `add_pack` is an old one or that of a descriptor of the pack. -/
theorem mem_addPack {ds : List PackedBlobDescriptor} (h : (id, l) ∈ (ix.addPack packId ds).iterIds) :
    (id, l) ∈ ix.iterIds ∨
      ∃ d ∈ ds, d.blobType ≠ .padding ∧ id = d.id ∧ l = d.locator packId := by
  rcases mem_addBlobs _ (IndexSet.getValue_insert _ _) h with hold | hnew
  · exact Or.inl (iterIds_withPack_sound hold)
  · exact Or.inr hnew

/-- `add_pack` keeps an entry of the same type for every blob of the index. -/
theorem addPack_complete (packId : ID) (ds : List PackedBlobDescriptor) (h : (id, l) ∈ ix.iterIds) :
    ∃ l', (id, l') ∈ (ix.addPack packId ds).iterIds ∧ l'.blobType = l.blobType :=
  addBlobs_complete _ ds (iterIds_withPack_complete h)

/-- `add_pack` gives an index under construction an entry for every descriptor. -/
theorem mem_addPack_self {ds : List PackedBlobDescriptor} {d : PackedBlobDescriptor} (packId : ID)
    (hmut : ix.IsMutable) (hmem : d ∈ ds) (hd : d.blobType ≠ .padding) :
    ∃ l', (d.id, l') ∈ (ix.addPack packId ds).iterIds ∧ l'.blobType = d.blobType :=
  have hmut' : (ix.withPack packId).IsMutable := hmut
  mem_addBlobs_self _ hmut' (IndexSet.getValue_insert _ _) hmem hd

theorem addBlobs_meta (ds : List PackedBlobDescriptor) :
    (ix.addBlobs k hk ds).status = ix.status ∧
      (ix.addBlobs k hk ds).instanceId = ix.instanceId ∧
      (ix.IsMutable → (ix.addBlobs k hk ds).IsMutable) := by
  induction ds generalizing ix with
  | nil => exact ⟨rfl, rfl, fun h => h⟩
  | cons d ds ih =>
    have hk' : ((ix.addBlob k hk d).packIds.getValue k).isSome = true := by
      rw [addBlob_packIds]
      exact hk
    obtain ⟨hst, hinst, hmut⟩ := ih hk'
    have hhead : (ix.addBlob k hk d).status = ix.status ∧
        (ix.addBlob k hk d).instanceId = ix.instanceId := by
      unfold addBlob
      split <;> exact ⟨rfl, rfl⟩
    exact ⟨hst.trans hhead.1, hinst.trans hhead.2, fun h => hmut (h.addBlob hk d)⟩

@[simp] theorem addPack_status (packId : ID) (ds : List PackedBlobDescriptor) :
    (ix.addPack packId ds).status = ix.status :=
  (addBlobs_meta _ ds).1

@[simp] theorem addPack_instanceId (packId : ID) (ds : List PackedBlobDescriptor) :
    (ix.addPack packId ds).instanceId = ix.instanceId :=
  (addBlobs_meta _ ds).2.1

theorem IsMutable.addPack (hmut : ix.IsMutable) (packId : ID) (ds : List PackedBlobDescriptor) :
    (ix.addPack packId ds).IsMutable :=
  (addBlobs_meta _ ds).2.2 hmut

end AddPack

end Index

end Mapache
