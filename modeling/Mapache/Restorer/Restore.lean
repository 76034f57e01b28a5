import Mapache.Repository.SaveBlob
import Mapache.Restorer.LocalFs
import Mapache.Restorer.Planner

/-!
# A whole restore

`Restorer::restore` for the files of a snapshot. The files are planned one after the other, in
batches of a given size; each batch goes through `restore_packs`. A file that is a hard link to one
that was planned before is linked to it at the end.

The local files are inodes with names. A symbolic link at the path of a file is removed, but a file
that is there is opened in place, and what is written to it is seen at its other names too. So a
file is its blobs at the end when no other file that is written is a name of the same inode
(`restore_reproduces`), and then a selective restore leaves the same bytes as a full one
(`selective_eq_full`). Two restored files that are names of one inode overwrite each other
(`restore_overwrites`).

A path is a place in the target, the links among the directories above it being followed.
-/

set_option autoImplicit false

namespace Mapache

open Lib

/-! ## Hard links -/

/-- The device and the inode of a node with several links. -/
def hardlinkKey (node : Node) : Option (Nat × Nat) :=
  node.metadata.dev.bind fun dev =>
    node.metadata.inode.bind fun inode =>
      if 1 < node.metadata.nlink.getD 0 then some (dev, inode) else none

/-- `detect_hardlink`: the primary file that the item is to be linked to, and the primary files
after it. -/
def detectHardlink (fingerprint : List ID → ID) (primaries : Table (Nat × Nat) (Path × ID))
    (item : RestoreItem) : Option Path × Table (Nat × Nat) (Path × ID) :=
  match hardlinkKey item.node with
  | none => (none, primaries)
  | some key =>
    match primaries.lookup key with
    | some primary =>
      if primary.2 = fingerprint item.blobs then (some primary.1, primaries) else (none, primaries)
    | none => (none, primaries.insert key (item.path, fingerprint item.blobs))

/-- The files of a restore in the order of the node stream, each with the primary file it is linked
to. -/
def planItems (fingerprint : List ID → ID) : Table (Nat × Nat) (Path × ID) → List RestoreItem →
    List (PlannedFile × Option Path)
  | _, [] => []
  | primaries, item :: items =>
    let detected := detectHardlink fingerprint primaries item
    (⟨item, detected.1.isSome⟩, detected.1) :: planItems fingerprint detected.2 items

/-- The pending hard links, each with its primary file. -/
def pendingLinks (planned : List (PlannedFile × Option Path)) : List (Path × Path) :=
  planned.filterMap fun x => x.2.map fun primary => (x.1.path, primary)

/-- The links are created one after the other: what is at the path is removed, and the path becomes
a name of the primary file. -/
inductive LinksAll : LocalFs → List (Path × Path) → LocalFs → Prop where
  | nil {fs : LocalFs} : LinksAll fs [] fs
  | cons {fs fs' : LocalFs} {path primary : Path} {links : List (Path × Path)} :
      fs.entry path ≠ .directory → fs.entry primary ≠ .absent → fs.entry primary ≠ .directory →
      LinksAll (fs.setEntry path (fs.entry primary)) links fs' →
      LinksAll fs ((path, primary) :: links) fs'

/-! ## Batches -/

/-- The batches of the loop: a batch is flushed when it has `batchSize` files. -/
def batchFiles (batchSize : Nat) : List PlannedFile → List PlannedFile → List (List PlannedFile)
  | current, [] => if current = [] then [] else [current]
  | current, f :: fs =>
    if batchSize ≤ (current ++ [f]).length then (current ++ [f]) :: batchFiles batchSize [] fs
    else batchFiles batchSize (current ++ [f]) fs

/-- What is at the paths of a batch. -/
def entriesOf (files : List PlannedFile) (fs : Path → LocalEntry) (i : Nat) : LocalEntry :=
  match files[i]? with
  | some f => fs f.path
  | none => .absent

/-- What a batch does to the file at a path. -/
def batchOps (files : List PlannedFile) (s : RestoreState) (path : Path) : List FileOp :=
  match files.findIdx? fun f => f.path = path with
  | some i => s.ops i
  | none => []

/-- All batches are restored without a failure: what they do at the paths, and what this makes of the
file system. The operations of a batch at one path are in their order. -/
inductive RestoresBatches (env : Env) (config : RestoreConfig) (b : Backend)
    (leadsTo : Path → Bytes → Path) (getData : ID → Option BlobLocator) :
    LocalFs → List (List PlannedFile) → List (Path × FileOp) → LocalFs → Prop where
  | nil {fs : LocalFs} : RestoresBatches env config b leadsTo getData fs [] [] fs
  | cons {fs fs' fs'' : LocalFs} {files : List PlannedFile} {batches : List (List PlannedFile)}
      {order : List (ID × BlobLocator)} {ls : List Unit} {s : RestoreState}
      {log log' : List (Path × FileOp)} :
      order.Perm (packBlobs (batchRequests getData files)) →
      Run (RestoreState.Step env config b (files.map (PlannedFile.plan getData))
          (batchRequests getData files) (entriesOf files (fs.view leadsTo)))
        (RestoreState.start config (files.map (PlannedFile.plan getData))
          (allSegments config.segments order)) ls s →
      s.Done → s.failed = false →
      (∀ path, LocalFs.opsAt path log = batchOps files s path) → fs.Does log fs' →
      RestoresBatches env config b leadsTo getData fs' batches log' fs'' →
      RestoresBatches env config b leadsTo getData fs (files :: batches) (log ++ log') fs''

/-- A restore of the items that reports success: what was done at the paths, and the file system at
the end. -/
structure Restores (env : Env) (config : RestoreConfig) (b : Backend) (mi : MasterIndex)
    (leadsTo : Path → Bytes → Path) (fingerprint : List ID → ID) (batchSize : Nat) (fs : LocalFs)
    (items : List RestoreItem) (log : List (Path × FileOp)) (fs' : LocalFs) : Prop where
  /-- No blob is reported as missing in the index. -/
  indexed : ∀ item ∈ items, ∀ id ∈ item.blobs, (mi.getData env.toIndexEnv id).isSome = true
  restored : ∃ fs₁, RestoresBatches env config b leadsTo (mi.getData env.toIndexEnv) fs
      (batchFiles batchSize [] ((planItems fingerprint ∅ items).map Prod.fst)) log fs₁ ∧
    LinksAll fs₁ (pendingLinks (planItems fingerprint ∅ items)) fs'

/-! ## Files that are written -/

/-- Something is written to the file: it is restored as a whole, and a hard link only when it is
empty, or it has changed blobs. -/
def PlannedFile.isWritten (f : PlannedFile) : Bool :=
  match f.changed with
  | none => !f.isHardlink || f.node.metadata.size = 0
  | some changed => !f.isHardlink && changed ≠ []

/-- The path that the content of the item is written at: its own, or that of the primary file it is
linked to. -/
def RestoreItem.writtenAt (fingerprint : List ID → ID) (items : List RestoreItem)
    (item : RestoreItem) : Path :=
  (((planItems fingerprint ∅ items).find? fun x => x.1.path = item.path).bind Prod.snd).getD item.path

/-- No other file that is written is a name of the inode at the path. -/
def WrittenAlone (fingerprint : List ID → ID) (fs : LocalFs) (items : List RestoreItem)
    (path : Path) : Prop :=
  ∀ x ∈ planItems fingerprint ∅ items, x.1.isWritten = true → x.1.path ≠ path →
    ¬ fs.Shares path x.1.path

section Planning

variable {fingerprint : List ID → ID} {primaries : Table (Nat × Nat) (Path × ID)}
  {items : List RestoreItem}

theorem flatten_batchFiles (batchSize : Nat) (fs current : List PlannedFile) :
    (batchFiles batchSize current fs).flatten = current ++ fs := by
  induction fs generalizing current with
  | nil =>
    unfold batchFiles
    split
    · rename_i hnil
      rw [hnil]
      rfl
    · simp
  | cons f fs ih =>
    unfold batchFiles
    split
    · rw [List.flatten_cons, ih]
      simp
    · rw [ih]
      simp

/-- Planning keeps the items. -/
theorem map_planItems (fingerprint : List ID → ID) (primaries : Table (Nat × Nat) (Path × ID))
    (items : List RestoreItem) :
    (planItems fingerprint primaries items).map (fun x => x.1.toRestoreItem) = items := by
  induction items generalizing primaries with
  | nil => rfl
  | cons item items ih => rw [planItems, List.map_cons, ih]

theorem isHardlink_planItems {x : PlannedFile × Option Path}
    (hx : x ∈ planItems fingerprint primaries items) : x.1.isHardlink = x.2.isSome := by
  induction items generalizing primaries with
  | nil => cases hx
  | cons item items ih =>
    rcases List.mem_cons.mp hx with rfl | hx
    · rfl
    · exact ih hx

/-- The primary files: each key stands for a file that is planned and not linked. -/
def Primaries (fingerprint : List ID → ID) (primaries : Table (Nat × Nat) (Path × ID))
    (planned : List (PlannedFile × Option Path)) : Prop :=
  ∀ key primary, primaries.lookup key = some primary → ∃ x ∈ planned, x.2 = none ∧
    x.1.path = primary.1 ∧ hardlinkKey x.1.node = some key ∧ fingerprint x.1.blobs = primary.2

theorem Primaries.empty (fingerprint : List ID → ID) : Primaries fingerprint ∅ [] := by
  intro key primary hlookup
  cases hlookup

/-- What `detect_hardlink` does: the item is a link, it is none, or it is a new primary file. -/
theorem detectHardlink_cases (fingerprint : List ID → ID)
    (primaries : Table (Nat × Nat) (Path × ID)) (item : RestoreItem) :
    (∃ key primary, hardlinkKey item.node = some key ∧ primaries.lookup key = some primary ∧
      primary.2 = fingerprint item.blobs ∧
      detectHardlink fingerprint primaries item = (some primary.1, primaries)) ∨
    detectHardlink fingerprint primaries item = (none, primaries) ∨
    ∃ key, hardlinkKey item.node = some key ∧ detectHardlink fingerprint primaries item =
      (none, primaries.insert key (item.path, fingerprint item.blobs)) := by
  cases hkey : hardlinkKey item.node with
  | none => simp [detectHardlink, hkey]
  | some key =>
    cases hlookup : primaries.lookup key with
    | none => simp [detectHardlink, hkey, hlookup]
    | some primary =>
      by_cases hfp : primary.2 = fingerprint item.blobs
      · exact Or.inl ⟨key, primary, rfl, hlookup, hfp, by simp [detectHardlink, hkey, hlookup,
          hfp]⟩
      · simp [detectHardlink, hkey, hlookup, hfp]

/-- The primary files after an item. -/
theorem Primaries.detect {planned : List (PlannedFile × Option Path)}
    (h : Primaries fingerprint primaries planned) (item : RestoreItem) :
    Primaries fingerprint (detectHardlink fingerprint primaries item).2
      (planned ++ [(⟨item, (detectHardlink fingerprint primaries item).1.isSome⟩,
        (detectHardlink fingerprint primaries item).1)]) := by
  have hold : ∀ x, Primaries fingerprint primaries (planned ++ [x]) := by
    intro x key primary hlookup
    obtain ⟨y, hy, hrest⟩ := h key primary hlookup
    exact ⟨y, List.mem_append_left _ hy, hrest⟩
  rcases detectHardlink_cases fingerprint primaries item with
    ⟨key, primary, -, -, -, heq⟩ | heq | ⟨key, hkey, heq⟩
  · rw [heq]
    exact hold _
  · rw [heq]
    exact hold _
  · rw [heq]
    intro key' primary hlookup
    dsimp only at hlookup
    rw [Table.lookup_insert_eq_ite] at hlookup
    split at hlookup
    · rename_i hsame
      cases hlookup
      exact ⟨_, List.mem_append_right _ (List.mem_singleton_self _), rfl, rfl, hsame ▸ hkey, rfl⟩
    · exact hold _ key' primary hlookup

/-- **A link goes to a file that is planned before, with the same inode and the same fingerprint,
and that is not a link itself.** -/
theorem exists_primary {planned : List (PlannedFile × Option Path)}
    (hprim : Primaries fingerprint primaries planned) {x : PlannedFile × Option Path}
    (hx : x ∈ planItems fingerprint primaries items) {primary : Path} (hlink : x.2 = some primary) :
    ∃ y ∈ planned ++ planItems fingerprint primaries items, y.2 = none ∧ y.1.path = primary ∧
      (∃ key, hardlinkKey y.1.node = some key ∧ hardlinkKey x.1.node = some key) ∧
      fingerprint y.1.blobs = fingerprint x.1.blobs := by
  induction items generalizing primaries planned with
  | nil => cases hx
  | cons item items ih =>
    rw [planItems] at hx ⊢
    rcases List.mem_cons.mp hx with rfl | hx
    · -- the item itself is a link
      dsimp only at hlink
      rcases detectHardlink_cases fingerprint primaries item with
        ⟨key, entry, hkey, hlookup, hfp, heq⟩ | heq | ⟨key, -, heq⟩
      · rw [heq] at hlink
        cases hlink
        obtain ⟨y, hy, hnone, hpath, hykey, hyfp⟩ := hprim key entry hlookup
        exact ⟨y, List.mem_append_left _ hy, hnone, hpath, ⟨key, hykey, hkey⟩, hyfp.trans hfp⟩
      · rw [heq] at hlink
        cases hlink
      · rw [heq] at hlink
        cases hlink
    · obtain ⟨y, hy, hrest⟩ := ih (hprim.detect item) hx
      refine ⟨y, ?_, hrest⟩
      rw [List.append_assoc] at hy
      exact hy

/-- Making links changes no bytes. -/
theorem LinksAll.bytes_eq {fs fs' : LocalFs} {links : List (Path × Path)} (h : LinksAll fs links fs') :
    fs'.bytes = fs.bytes := by
  induction h with
  | nil => rfl
  | cons _ _ _ _ ih => exact ih

/-- A path that is no link stays as it is. -/
theorem LinksAll.entry_of_notMem {fs fs' : LocalFs} {links : List (Path × Path)} {path : Path}
    (h : LinksAll fs links fs') (hpath : path ∉ links.map Prod.fst) :
    fs'.entry path = fs.entry path := by
  induction h with
  | nil => rfl
  | cons _ _ _ _ ih =>
    rw [List.map_cons, List.mem_cons, not_or] at hpath
    rw [ih hpath.2, LocalFs.setEntry_entry, Function.update_of_ne hpath.1]

/-- A link is a name of its primary file. -/
theorem LinksAll.entry_of_mem {fs fs' : LocalFs} {links : List (Path × Path)} {path primary : Path}
    (h : LinksAll fs links fs') (hnodup : (links.map Prod.fst).Nodup)
    (hmem : (path, primary) ∈ links) (hprimary : primary ∉ links.map Prod.fst) :
    fs'.entry path = fs.entry primary := by
  induction h with
  | nil => cases hmem
  | cons _ _ _ hrest ih =>
    rw [List.map_cons, List.nodup_cons] at hnodup
    rw [List.map_cons, List.mem_cons, not_or] at hprimary
    rcases List.mem_cons.mp hmem with heq | hmem
    · cases heq
      rw [hrest.entry_of_notMem hnodup.1, LocalFs.setEntry_entry, Function.update_self]
    · rw [ih hnodup.2 hmem hprimary.2, LocalFs.setEntry_entry, Function.update_of_ne hprimary.1]

end Planning

/-! ## One file of a batch -/

/-- The blobs of the item are in the index, with their lengths, and in the packs. -/
def RestoreItem.Stored (env : Env) (b : Backend) (mi : MasterIndex) (plain : ID → Bytes)
    (item : RestoreItem) : Prop :=
  ∀ id ∈ item.blobs, ∀ l, mi.getData env.toIndexEnv id = some l →
    b.Holds env plain (id, l) ∧ l.rawLength = (plain id).length

/-- A selective item: the comparison of a local file of the right size has found the changed blobs,
and no other bytes have the hash of a blob. -/
def RestoreItem.Verified (env : Env) (mi : MasterIndex) (plain : ID → Bytes)
    (fs : Path → LocalEntry) (item : RestoreItem) : Prop :=
  ∀ changed, item.changed = some changed → ∃ bytes, fs item.path = .file bytes ∧
    bytes.length = item.node.metadata.size ∧
    verifyFileContent env.fromContent (mi.getData env.toIndexEnv) item.node bytes = some changed ∧
    ∀ id ∈ item.blobs, ∀ data, env.fromContent data = id → data = plain id

/-- What is to become of the item: the bytes of its blobs. -/
def RestoreItem.content (plain : ID → Bytes) (item : RestoreItem) : Bytes := item.blobs.flatMap plain

/-- The item can be restored: its size is the total of its blobs, these are stored, and a selective
plan comes from the comparison. -/
structure RestoreItem.Faithful (env : Env) (b : Backend) (mi : MasterIndex) (plain : ID → Bytes)
    (fs : Path → LocalEntry) (item : RestoreItem) : Prop where
  size_eq : item.node.metadata.size = (item.blobs.map fun id => (plain id).length).sum
  stored : item.Stored env b mi plain
  verified : item.Verified env mi plain fs

section File

variable {env : Env} {config : RestoreConfig} {b : Backend} {mi : MasterIndex} {plain : ID → Bytes}
  {fs : Path → LocalEntry} {files : List PlannedFile} {f : PlannedFile} {i : Nat}

theorem length_content (item : RestoreItem) :
    (item.content plain).length = (item.blobs.map fun id => (plain id).length).sum :=
  List.length_flatMap

/-- The positions of the blobs that are not restored. -/
def keptPositions (plain : ID → Bytes) (f : PlannedFile) : Set Nat :=
  { p | ∃ changed k w, f.changed = some changed ∧ k ∉ changed ∧
    (withOffsets 0 (f.blobs.map plain))[k]? = some w ∧ w.2 ≤ p ∧ p < w.2 + w.1.length }

/-- The blobs of a file that is restored, in the index with their lengths. -/
theorem known_of_indexed (hstored : f.Stored env b mi plain)
    (hindexed : ∀ id ∈ f.blobs, (mi.getData env.toIndexEnv id).isSome = true) :
    ∀ id ∈ f.blobs, ∃ l, mi.getData env.toIndexEnv id = some l ∧ l.rawLength = (plain id).length := by
  intro id hid
  obtain ⟨l, hl⟩ := Option.isSome_iff_exists.mp (hindexed id hid)
  exact ⟨l, hl, (hstored id hid l hl).2⟩

theorem holdsAt_content {w : Bytes × Nat} (hw : w ∈ withOffsets 0 (f.blobs.map plain)) :
    HoldsAt (f.content plain) w.2 w.1 := by
  have h := holdsAt_withOffsets [] (f.blobs.map plain) hw
  rw [List.nil_append, ← List.flatMap_def] at h
  exact h

/-- What was not found changed is there. -/
theorem kept_agrees (hf : f.Faithful env b mi plain fs)
    (hindexed : ∀ id ∈ f.blobs, (mi.getData env.toIndexEnv id).isSome = true) {changed : List Nat}
    (hchanged : f.changed = some changed) :
    ∃ bytes, fs f.path = .file bytes ∧ bytes.length = f.node.metadata.size ∧
      ∀ p ∈ keptPositions plain f, bytes[p]? = (f.content plain)[p]? := by
  obtain ⟨bytes, hbytes, hlen, hverify, hhash⟩ := hf.verified changed hchanged
  refine ⟨bytes, hbytes, hlen, ?_⟩
  rintro p ⟨changed', k, w, hchanged', hk, hw, hlo, hhi⟩
  rw [hchanged] at hchanged'
  cases hchanged'
  have hholds : HoldsAt bytes w.2 w.1 := by
    unfold verifyFileContent at hverify
    split at hverify
    · rename_i hnone
      have hnil : f.blobs = [] := by
        rw [RestoreItem.blobs, hnone]
        rfl
      rw [hnil] at hw
      cases hw
    · rename_i blobs hblobs
      have hsome : f.blobs = blobs := by
        rw [RestoreItem.blobs, hblobs]
        rfl
      rw [← hsome] at hverify
      refine (holdsAt_of_verify f.blobs (known_of_indexed hf.stored hindexed) hhash hverify).2 k w
        hw ?_
      rw [Nat.zero_add]
      exact hk
  have htarget := holdsAt_content (List.mem_of_getElem? hw)
  obtain ⟨j, rfl⟩ : ∃ j, p = w.2 + j := ⟨p - w.2, by omega⟩
  rw [hholds j (by omega), htarget j (by omega)]

/-- **The goal of a file that is written.** -/
theorem fileGoal_of_faithful (hf : f.Faithful env b mi plain fs)
    (hindexed : ∀ id ∈ f.blobs, (mi.getData env.toIndexEnv id).isSome = true)
    (hi : files[i]? = some f) :
    RestoreState.FileGoal env b plain (files.map (PlannedFile.plan (mi.getData env.toIndexEnv)))
      (batchRequests (mi.getData env.toIndexEnv) files) (entriesOf files fs) i
      (f.plan (mi.getData env.toIndexEnv)) (f.content plain) (keptPositions plain f) := by
  have hsize : f.node.metadata.size = (f.content plain).length := by
    rw [length_content, hf.size_eq]
  have hrequest : ∀ q ∈ batchRequests (mi.getData env.toIndexEnv) files, q.request.fileIdx = i →
      ∃ x ∈ fileBlobs (mi.getData env.toIndexEnv) 0 f.blobs,
        q = ⟨x.2.1.packId, x.1, ⟨i, x.2.2, x.2.1.offset, x.2.1.length, x.2.1.rawLength⟩⟩ := by
    intro q hq hidx
    obtain ⟨-, x, hx, rfl⟩ := mem_requests.mp (mem_batchRequests_idx hi hq hidx)
    exact ⟨x, mem_requested hx, rfl⟩
  refine ⟨?_, fun q hq hidx => ?_, fun q hq hidx => ?_, le_of_eq hsize, ?_, fun hsel => ?_,
    fun hsel => ?_⟩
  · rw [List.getElem?_map, hi, Option.map_some]
  · -- a requested blob belongs at its offset, and its pack holds it
    obtain ⟨x, hx, rfl⟩ := hrequest q hq hidx
    have hmem : (plain x.1, x.2.2) ∈ withOffsets 0 (f.blobs.map plain) := by
      rw [← map_fileBlobs f.blobs 0 (known_of_indexed hf.stored hindexed)]
      exact List.mem_map_of_mem (f := fun x : ID × BlobLocator × Nat => (plain x.1, x.2.2)) hx
    exact holdsAt_content hmem
  · obtain ⟨x, hx, rfl⟩ := hrequest q hq hidx
    obtain ⟨hget, hid⟩ := getData_of_mem_fileBlobs hx
    have hholds := (hf.stored x.1 hid x.2.1 hget).1
    have htype := (MasterIndex.mem_of_getData hget).2
    rw [PackRequest.locator, ← htype]
    exact hholds
  · -- nothing beyond the end is kept
    rintro p ⟨changed, k, w, -, -, hw, hlo, hhi⟩
    have hne : w.1 ≠ [] := by
      rintro hnil
      rw [hnil, List.length_nil] at hhi
      omega
    have hle := (holdsAt_content (List.mem_of_getElem? hw)).le_length hne
    omega
  · -- a full restore keeps nothing, a selective one the local bytes that agree
    ext p
    constructor
    · rintro ⟨changed, k, w, hchanged, -⟩
      simp [PlannedFile.plan, hchanged] at hsel
    · exact fun hp => hp.elim
  · obtain ⟨changed, hchanged⟩ := Option.isSome_iff_exists.mp hsel
    obtain ⟨bytes, hbytes, hlen, hagree⟩ := kept_agrees hf hindexed hchanged
    refine ⟨bytes, ?_, ?_, hagree⟩
    · rw [entriesOf, hi]
      exact hbytes
    · rw [hlen, hsize]

/-- Every position of the file is kept or requested. -/
theorem covered_of_faithful (hf : f.Faithful env b mi plain fs)
    (hindexed : ∀ id ∈ f.blobs, (mi.getData env.toIndexEnv id).isSome = true) (hi : files[i]? = some f)
    (hlink : f.isHardlink = false) {p : Nat} (hp : p < (f.content plain).length) :
    p ∈ keptPositions plain f ∨ ∃ q ∈ batchRequests (mi.getData env.toIndexEnv) files,
      q.request.fileIdx = i ∧ q.request.offsetInFile ≤ p ∧
        p < q.request.offsetInFile + (plain q.blobId).length := by
  obtain ⟨w, hw, hlo, hhi⟩ := exists_withOffsets 0 (f.blobs.map plain) (Nat.zero_le p)
    (by rw [Nat.zero_add, ← List.flatMap_def]; exact hp)
  obtain ⟨k, hk⟩ := List.mem_iff_getElem?.mp hw
  have hmap := map_fileBlobs f.blobs 0 (known_of_indexed hf.stored hindexed)
  rw [← hmap, List.getElem?_map] at hk
  obtain ⟨x, hx, rfl⟩ := Option.map_eq_some_iff.mp hk
  -- the blob is requested, unless it is among the unchanged ones
  have hrequest : x ∈ f.requested (mi.getData env.toIndexEnv) →
      ∃ q ∈ batchRequests (mi.getData env.toIndexEnv) files,
        q.request.fileIdx = i ∧ q.request.offsetInFile ≤ p ∧
          p < q.request.offsetInFile + (plain q.blobId).length := by
    intro hmem
    exact ⟨_, mem_batchRequests.mpr ⟨i, f, hi, mem_requests.mpr ⟨hlink, x, hmem, rfl⟩⟩, rfl, hlo, hhi⟩
  cases hchanged : f.changed with
  | none =>
    refine Or.inr (hrequest ?_)
    rw [PlannedFile.requested, hchanged]
    exact List.mem_of_getElem? hx
  | some changed =>
    by_cases hmem : k ∈ changed
    · refine Or.inr (hrequest ?_)
      rw [PlannedFile.requested, hchanged]
      exact List.mem_filterMap.mpr ⟨k, hmem, hx⟩
    · refine Or.inl ⟨changed, k, _, hchanged, hmem, ?_, hlo, hhi⟩
      rw [← hmap, List.getElem?_map, hx, Option.map_some]

end File

/-- The file that the item is linked to can be restored, and it has the fingerprint of the item only
with its blobs. -/
def RestoreItem.LinksSound (env : Env) (b : Backend) (mi : MasterIndex) (plain : ID → Bytes)
    (fingerprint : List ID → ID) (fs : Path → LocalEntry)
    (items : List RestoreItem) (item : RestoreItem) : Prop :=
  ∀ g ∈ items, g.path = item.writtenAt fingerprint items → g ≠ item →
    g.Faithful env b mi plain fs ∧
      (fingerprint g.blobs = fingerprint item.blobs → g.blobs = item.blobs)

section Batches

variable {env : Env} {config : RestoreConfig} {b : Backend} {mi : MasterIndex} {plain : ID → Bytes}
  {leadsTo : Path → Bytes → Path} {fs fs' : LocalFs} {files : List PlannedFile} {f : PlannedFile}
  {i : Nat} {getData : ID → Option BlobLocator} {batches : List (List PlannedFile)}
  {log : List (Path × FileOp)} {s : RestoreState} {path : Path}

/-- What `restore_packs` sees where a file is. -/
theorem view_of_untouched {bytes : Bytes} (hsame : LocalFs.Untouched fs fs' path)
    (hview : fs.view leadsTo path = .file bytes) : fs'.view leadsTo path = .file bytes := by
  unfold LocalFs.view at hview
  split at hview
  · cases hview
  · rename_i i hi
    cases hview
    rw [LocalFs.view, hsame.entry_eq.trans hi]
    dsimp only
    rw [hsame.bytes_eq i hi]
  · cases hview
  · cases hview

theorem batchOps_of_notMem (h : path ∉ files.map fun f => f.path) : batchOps files s path = [] := by
  have hnone : files.findIdx? (fun f => f.path = path) = none := by
    rw [List.findIdx?_eq_none_iff]
    intro f hf
    rw [decide_eq_false_iff_not]
    rintro rfl
    exact h (List.mem_map_of_mem (f := fun f : PlannedFile => f.path) hf)
  rw [batchOps, hnone]

/-- The operations at the path of a file are those of its index. -/
theorem batchOps_of_getElem? (hnodup : (files.map fun f => f.path).Nodup) (hi : files[i]? = some f) :
    batchOps files s f.path = s.ops i := by
  obtain ⟨hlt, hget⟩ := List.getElem?_eq_some_iff.mp hi
  have hfind : files.findIdx? (fun g => g.path = f.path) = some i := by
    rw [List.findIdx?_eq_some_iff_getElem]
    refine ⟨hlt, by rw [hget, decide_eq_true_eq], fun j hj => ?_⟩
    rw [decide_eq_true_eq]
    intro hpath
    -- two files with one path are one
    have hjlt : j < files.length := by omega
    have hsame : (files.map fun g => g.path)[j]? = (files.map fun g => g.path)[i]? := by
      rw [List.getElem?_map, List.getElem?_map, hi, List.getElem?_eq_getElem hjlt, Option.map_some,
        Option.map_some, hpath]
    have heq := (List.getElem?_inj (by rw [List.length_map]; exact hjlt) hnodup).mp hsame
    omega
  rw [batchOps, hfind]

/-- Nothing is done to a file that is not written. -/
theorem ops_of_not_isWritten (hi : files[i]? = some f) (hwritten : f.isWritten = false)
    {entries : Nat → LocalEntry} {segments : List PackSegment} {ls : List Unit}
    (hrun : Run (RestoreState.Step env config b (files.map (PlannedFile.plan getData))
        (batchRequests getData files) entries)
      (RestoreState.start config (files.map (PlannedFile.plan getData)) segments) ls s) :
    s.ops i = [] := by
  refine RestoreState.Idle.run (fun q hq hidx => ?_) (fun plan hplan => ?_) hrun
  · obtain ⟨hlink, x, hx, rfl⟩ := mem_requests.mp (mem_batchRequests_idx hi hq hidx)
    unfold PlannedFile.isWritten at hwritten
    unfold PlannedFile.requested at hx
    cases hchanged : f.changed with
    | none => simp [hchanged, hlink] at hwritten
    | some changed =>
      rw [hchanged] at hwritten hx
      have hnil : changed = [] := by simpa [hlink] using hwritten
      rw [hnil] at hx
      cases hx
  · rw [List.getElem?_map, hi, Option.map_some] at hplan
    cases hplan
    unfold PlannedFile.isWritten at hwritten
    cases hchanged : f.changed with
    | none =>
      rw [hchanged] at hwritten
      simp only [Bool.or_eq_false_iff, Bool.not_eq_false', decide_eq_false_iff_not] at hwritten
      simp [needsOpening, PlannedFile.plan, hchanged, hwritten.1, hwritten.2]
    | some changed => simp [needsOpening, PlannedFile.plan, hchanged]

/-- What a batch does is done to files that are written. -/
theorem exists_written_of_batchOps {entries : Nat → LocalEntry} {segments : List PackSegment}
    {ls : List Unit}
    (hrun : Run (RestoreState.Step env config b (files.map (PlannedFile.plan getData))
        (batchRequests getData files) entries)
      (RestoreState.start config (files.map (PlannedFile.plan getData)) segments) ls s)
    (hops : batchOps files s path ≠ []) : ∃ f ∈ files, f.isWritten = true ∧ f.path = path := by
  unfold batchOps at hops
  split at hops
  · rename_i i hfind
    obtain ⟨hlt, hpath, -⟩ := List.findIdx?_eq_some_iff_getElem.mp hfind
    refine ⟨files[i], List.getElem_mem hlt, ?_, of_decide_eq_true hpath⟩
    by_contra hne
    exact hops (ops_of_not_isWritten (List.getElem?_eq_getElem hlt) (by simpa using hne) hrun)
  · exact absurd rfl hops

/-- The operations of a restore, at files that are written. -/
theorem RestoresBatches.exists_written
    (h : RestoresBatches env config b leadsTo getData fs batches log fs')
    (hpath : path ∈ log.map Prod.fst) :
    ∃ f ∈ batches.flatten, f.isWritten = true ∧ f.path = path := by
  induction h with
  | nil => cases hpath
  | @cons fs fs' fs'' files batches order ls s log log' horder hrun hdone hok hops hdoes hrest ih =>
    rw [List.map_append, List.mem_append] at hpath
    rw [List.flatten_cons]
    rcases hpath with hpath | hpath
    · have hne : batchOps files s path ≠ [] := by
        rw [← hops path]
        exact fun hnil => LocalFs.opsAt_eq_nil.mp hnil hpath
      obtain ⟨f, hf, hrest⟩ := exists_written_of_batchOps hrun hne
      exact ⟨f, List.mem_append_left _ hf, hrest⟩
    · obtain ⟨f, hf, hrest⟩ := ih hpath
      exact ⟨f, List.mem_append_right _ hf, hrest⟩

theorem RestoresBatches.does (h : RestoresBatches env config b leadsTo getData fs batches log fs') :
    fs.Does log fs' := by
  induction h with
  | nil => exact .nil
  | cons _ _ _ _ _ hdoes _ ih => exact hdoes.append ih

/-- Nothing is done to a path that is in no batch. -/
theorem RestoresBatches.opsAt_of_notMem
    (h : RestoresBatches env config b leadsTo getData fs batches log fs')
    (hpath : path ∉ batches.flatten.map fun f => f.path) : LocalFs.opsAt path log = [] := by
  rw [LocalFs.opsAt_eq_nil]
  intro hmem
  obtain ⟨f, hf, -, rfl⟩ := h.exists_written hmem
  exact hpath (List.mem_map_of_mem (f := fun f : PlannedFile => f.path) hf)

/-- The files of the batches that are written, other than the one at the path, are no names of its
inode. -/
def BatchesAlone (fs : LocalFs) (batches : List (List PlannedFile)) (path : Path) : Prop :=
  ∀ f ∈ batches.flatten, f.isWritten = true → f.path ≠ path → ¬ fs.Shares path f.path

theorem BatchesAlone.not_shares (halone : BatchesAlone fs batches path)
    (h : RestoresBatches env config b leadsTo getData fs batches log fs') :
    ∀ q ∈ log.map Prod.fst, q ≠ path → ¬ fs.Shares path q := by
  intro q hq hne
  obtain ⟨f, hf, hwritten, rfl⟩ := h.exists_written hq
  exact halone f hf hwritten hne

/-- **A file is restored in its batch**: before it nothing has happened to the file, and in it and
after it only what the batch does to the file. -/
theorem RestoresBatches.exists_run
    (h : RestoresBatches env config b leadsTo getData fs batches log fs')
    (hnodup : (batches.flatten.map fun f => f.path).Nodup) (hf : f ∈ batches.flatten)
    (halone : BatchesAlone fs batches f.path) :
    ∃ (fs₀ : LocalFs) (files : List PlannedFile) (i : Nat)
      (order : List (ID × BlobLocator)) (ls : List Unit) (s : RestoreState),
      files[i]? = some f ∧ LocalFs.Untouched fs fs₀ f.path ∧ LocalFs.opsAt f.path log = s.ops i ∧
      (∀ entry, fs₀.Agrees f.path entry → fs'.Agrees f.path (contentOf entry (s.ops i))) ∧
      order.Perm (packBlobs (batchRequests getData files)) ∧
      Run (RestoreState.Step env config b (files.map (PlannedFile.plan getData))
          (batchRequests getData files) (entriesOf files (fs₀.view leadsTo)))
        (RestoreState.start config (files.map (PlannedFile.plan getData))
          (allSegments config.segments order)) ls s ∧ s.Done ∧ s.failed = false := by
  induction h with
  | nil => cases hf
  | @cons fs fs' fs'' files batches order ls s log log' horder hrun hdone hok hops hdoes hrest ih =>
    have hall := RestoresBatches.cons horder hrun hdone hok hops hdoes hrest
    have hshares := halone.not_shares hall
    rw [List.flatten_cons, List.map_append, List.nodup_append] at hnodup
    obtain ⟨hfiles, hbatches, hdisjoint⟩ := hnodup
    rw [List.flatten_cons, List.mem_append] at hf
    rcases hf with hf | hf
    · obtain ⟨i, hi⟩ := List.mem_iff_getElem?.mp hf
      have hlater : f.path ∉ batches.flatten.map fun f => f.path := by
        intro hmem
        exact hdisjoint _ (List.mem_map_of_mem (f := fun f : PlannedFile => f.path) hf) _ hmem rfl
      have hat : LocalFs.opsAt f.path (log ++ log') = s.ops i := by
        rw [LocalFs.opsAt_append, hops, batchOps_of_getElem? hfiles hi,
          hrest.opsAt_of_notMem hlater, List.append_nil]
      refine ⟨fs, files, i, order, ls, s, hi, .refl _ _, hat, fun entry hentry => ?_,
        horder, hrun, hdone, hok⟩
      rw [← hat]
      exact hall.does.agrees hshares hentry
    · have hearlier : f.path ∉ files.map fun f => f.path := by
        intro hmem
        exact hdisjoint _ hmem _ (List.mem_map_of_mem (f := fun f : PlannedFile => f.path) hf) rfl
      have hnone : LocalFs.opsAt f.path log = [] := by rw [hops, batchOps_of_notMem hearlier]
      have hpath : f.path ∉ log.map Prod.fst := LocalFs.opsAt_eq_nil.mp hnone
      -- the batch leaves the file, and gives it no other names
      have huntouched : LocalFs.Untouched fs fs' f.path := by
        refine hdoes.untouched hpath fun q hq => ?_
        refine hshares q (by rw [List.map_append]; exact List.mem_append_left _ hq) ?_
        rintro rfl
        exact hpath hq
      have halone' : BatchesAlone fs' batches f.path := by
        intro g hg hwritten hne
        refine hdoes.not_shares (Ne.symm hne) (halone g ?_ hwritten hne)
        rw [List.flatten_cons]
        exact List.mem_append_right _ hg
      obtain ⟨fs₀, files₀, i, order₀, ls₀, s₀, hi, hsame, hat, hrest₀⟩ := ih hbatches hf halone'
      refine ⟨fs₀, files₀, i, order₀, ls₀, s₀, hi, huntouched.trans hsame, ?_, hrest₀⟩
      rw [LocalFs.opsAt_append, hnone, List.nil_append, hat]

/-- **What the batches do to a file**: it is truncated at most once and not after data was written
to it, and unless it is a link it becomes the content of the item. -/
theorem RestoresBatches.spec
    (h : RestoresBatches env config b leadsTo (mi.getData env.toIndexEnv) fs batches log fs')
    (hnodup : (batches.flatten.map fun f => f.path).Nodup) (hf : f ∈ batches.flatten)
    (halone : BatchesAlone fs batches f.path)
    (hfaithful : f.Faithful env b mi plain (fs.view leadsTo))
    (hindexed : ∀ id ∈ f.blobs, (mi.getData env.toIndexEnv id).isSome = true) :
    (fs.opsOn f.path log).count .truncate ≤ 1 ∧ NeverTruncatesData (fs.opsOn f.path log) ∧
      (f.isHardlink = false → fs'.Agrees f.path (.file (f.content plain))) := by
  obtain ⟨fs₀, files, i, order, ls, s, hi, hsame, hat, hagrees, horder, hrun, hdone, hok⟩ :=
    h.exists_run hnodup hf halone
  have hfaithful₀ : f.Faithful env b mi plain (fs₀.view leadsTo) := by
    refine ⟨hfaithful.size_eq, hfaithful.stored, fun changed hchanged => ?_⟩
    obtain ⟨bytes, hbytes, hrest⟩ := hfaithful.verified changed hchanged
    exact ⟨bytes, view_of_untouched hsame hbytes, hrest⟩
  have hgoal := fileGoal_of_faithful hfaithful₀ hindexed hi
  have hlocated : ∀ q ∈ batchRequests (mi.getData env.toIndexEnv) files,
      mi.getData env.toIndexEnv q.blobId = some q.locator :=
    located_batchRequests fun id l hget => (MasterIndex.mem_of_getData hget).2
  obtain ⟨hsafe, hprogress⟩ := RestoreState.progress_of_run hgoal hlocated horder hrun hok
  rw [LocalFs.opsOn_eq_opsAt (halone.not_shares h), hat]
  refine ⟨hprogress.once, hsafe.ordered, fun hlink => ?_⟩
  have hcontent := RestoreState.content_eq_of_done hgoal hlocated
    (fun p hp => covered_of_faithful hfaithful₀ hindexed hi hlink hp) horder hrun hdone hok
  rw [entriesOf, hi] at hcontent
  have hview : fs₀.Agrees f.path (fs₀.view leadsTo f.path) := LocalFs.agrees_view
  rw [← hcontent]
  exact hagrees _ hview

end Batches

/-! ## The whole restore -/

section Restores

variable {env : Env} {config : RestoreConfig} {b : Backend} {mi : MasterIndex} {plain : ID → Bytes}
  {leadsTo : Path → Bytes → Path} {fingerprint : List ID → ID} {batchSize : Nat} {fs fs' : LocalFs}
  {items : List RestoreItem} {item : RestoreItem} {log : List (Path × FileOp)}
  {planned : List (PlannedFile × Option Path)} {x : PlannedFile × Option Path}

theorem map_fst_pendingLinks : (pendingLinks planned).map Prod.fst =
    (planned.filter fun x => x.2.isSome).map fun x => x.1.path := by
  induction planned with
  | nil => rfl
  | cons x planned ih =>
    rw [pendingLinks] at ih ⊢
    cases hlink : x.2 with
    | none => simp [hlink, ih]
    | some primary => simp [hlink, ih]

/-- The path of a file that is no link is not among the links. -/
theorem notMem_pendingLinks (hnodup : (planned.map fun x => x.1.path).Nodup) (hx : x ∈ planned)
    (hnone : x.2 = none) : x.1.path ∉ (pendingLinks planned).map Prod.fst := by
  rw [map_fst_pendingLinks]
  intro hmem
  obtain ⟨y, hy, hpath⟩ := List.mem_map.mp hmem
  obtain ⟨hy, hsome⟩ := List.mem_filter.mp hy
  have heq := List.inj_on_of_nodup_map hnodup hy hx hpath
  rw [heq, hnone] at hsome
  cases hsome

theorem nodup_planItems (hpaths : (items.map fun g => g.path).Nodup) :
    ((planItems fingerprint ∅ items).map fun x => x.1.path).Nodup := by
  rw [← map_planItems fingerprint ∅ items, List.map_map] at hpaths
  exact hpaths

/-- Where the content of a planned file is written. -/
theorem writtenAt_eq (hpaths : (items.map fun g => g.path).Nodup)
    (hx : x ∈ planItems fingerprint ∅ items) :
    x.1.writtenAt fingerprint items = x.2.getD x.1.path := by
  obtain ⟨y, hfind⟩ : ∃ y, (planItems fingerprint ∅ items).find? (fun y => y.1.path = x.1.path) =
      some y := by
    rw [← Option.isSome_iff_exists, List.find?_isSome]
    exact ⟨x, hx, decide_eq_true rfl⟩
  have hpath : y.1.path = x.1.path := by simpa using List.find?_some hfind
  have hyx : y = x :=
    List.inj_on_of_nodup_map (nodup_planItems hpaths) (List.mem_of_find?_eq_some hfind) hx hpath
  rw [RestoreItem.writtenAt, hfind, hyx]
  rfl

/-- **What the batches do to a file that is written alone.** -/
theorem Restores.file (h : Restores env config b mi leadsTo fingerprint batchSize fs items log fs')
    (hpaths : (items.map fun g => g.path).Nodup) (hx : x ∈ planItems fingerprint ∅ items)
    (hfaithful : x.1.Faithful env b mi plain (fs.view leadsTo))
    (halone : WrittenAlone fingerprint fs items x.1.path) :
    (fs.opsOn x.1.path log).count .truncate ≤ 1 ∧ NeverTruncatesData (fs.opsOn x.1.path log) ∧
      (x.2 = none → fs'.Agrees x.1.path (.file (x.1.content plain))) := by
  obtain ⟨fs₁, hbatches, hlinked⟩ := h.restored
  have hflat : (batchFiles batchSize [] ((planItems fingerprint ∅ items).map Prod.fst)).flatten =
      (planItems fingerprint ∅ items).map Prod.fst := flatten_batchFiles _ _ _
  have hmem : x.1.toRestoreItem ∈ items := by
    rw [← map_planItems fingerprint ∅ items]
    exact List.mem_map_of_mem (f := fun x : PlannedFile × Option Path => x.1.toRestoreItem) hx
  have halone' : BatchesAlone fs
      (batchFiles batchSize [] ((planItems fingerprint ∅ items).map Prod.fst)) x.1.path := by
    intro f hf hwritten hne
    rw [hflat] at hf
    obtain ⟨y, hy, rfl⟩ := List.mem_map.mp hf
    exact halone y hy hwritten hne
  obtain ⟨honce, hordered, hcontent⟩ := hbatches.spec (f := x.1)
    (by rw [hflat, List.map_map]; exact nodup_planItems hpaths)
    (by rw [hflat]; exact List.mem_map_of_mem (f := Prod.fst) hx) halone' hfaithful
    (h.indexed _ hmem)
  refine ⟨honce, hordered, fun hnone => ?_⟩
  obtain ⟨i, hentry, hbytes⟩ := hcontent (by rw [isHardlink_planItems hx, hnone]; rfl)
  refine ⟨i, ?_, ?_⟩
  · rw [hlinked.entry_of_notMem (notMem_pendingLinks (nodup_planItems hpaths) hx hnone), hentry]
  · rw [hlinked.bytes_eq, hbytes]

/-- **What a restore that reports success leaves**: the file of an item is the bytes of its blobs.
-/
theorem Restores.spec (h : Restores env config b mi leadsTo fingerprint batchSize fs items log fs')
    (hpaths : (items.map fun g => g.path).Nodup) (hitem : item ∈ items)
    (hfaithful : item.Faithful env b mi plain (fs.view leadsTo))
    (hlinks : item.LinksSound env b mi plain fingerprint (fs.view leadsTo) items)
    (halone : WrittenAlone fingerprint fs items (item.writtenAt fingerprint items)) :
    fs'.Agrees item.path (.file (item.content plain)) ∧
      (fs.opsOn (item.writtenAt fingerprint items) log).count .truncate ≤ 1 ∧
      NeverTruncatesData (fs.opsOn (item.writtenAt fingerprint items) log) := by
  have hmap := map_planItems fingerprint ∅ items
  obtain ⟨x, hx, rfl⟩ : ∃ x ∈ planItems fingerprint ∅ items, x.1.toRestoreItem = item := by
    rw [← hmap] at hitem
    exact List.mem_map.mp hitem
  rw [RestoreItem.LinksSound, writtenAt_eq hpaths hx] at hlinks
  rw [writtenAt_eq hpaths hx] at halone ⊢
  cases hlink : x.2 with
  | none =>
    rw [hlink] at halone
    obtain ⟨honce, hordered, hcontent⟩ := h.file hpaths hx hfaithful halone
    exact ⟨hcontent hlink, honce, hordered⟩
  | some primary =>
    rw [hlink] at halone hlinks
    -- the primary file is restored, and it has the same blobs
    obtain ⟨y, hy, hynone, rfl, -, hyfp⟩ := exists_primary (Primaries.empty fingerprint) hx hlink
    rw [List.nil_append] at hy
    have hymem : y.1.toRestoreItem ∈ items := by
      rw [← hmap]
      exact List.mem_map_of_mem (f := fun x : PlannedFile × Option Path => x.1.toRestoreItem) hy
    have hne : y.1.toRestoreItem ≠ x.1.toRestoreItem := by
      intro heq
      have hyx := List.inj_on_of_nodup_map (nodup_planItems hpaths) hy hx
        (congrArg RestoreItem.path heq)
      rw [hyx, hlink] at hynone
      cases hynone
    obtain ⟨hyfaithful, hblobs⟩ := hlinks _ hymem rfl hne
    obtain ⟨honce, hordered, hcontent⟩ := h.file hpaths hy hyfaithful halone
    refine ⟨?_, honce, hordered⟩
    obtain ⟨i, hentry, hbytes⟩ := hcontent hynone
    obtain ⟨fs₁, -, hlinked⟩ := h.restored
    have hnodup : ((planItems fingerprint ∅ items).map fun x => x.1.path).Nodup :=
      nodup_planItems hpaths
    have hlinksNodup : ((pendingLinks (planItems fingerprint ∅ items)).map Prod.fst).Nodup := by
      rw [map_fst_pendingLinks]
      exact hnodup.sublist (List.Sublist.map _ List.filter_sublist)
    have hlinkmem : (x.1.path, y.1.path) ∈ pendingLinks (planItems fingerprint ∅ items) :=
      List.mem_filterMap.mpr ⟨x, hx, by rw [hlink, Option.map_some]⟩
    have hprimary := notMem_pendingLinks hnodup hy hynone
    refine ⟨i, ?_, ?_⟩
    · rw [hlinked.entry_of_mem hlinksNodup hlinkmem hprimary, ← hlinked.entry_of_notMem hprimary,
        hentry]
    · rw [hbytes, RestoreItem.content, hblobs hyfp]
      rfl

/-- **Restore reproduces what was backed up.** A full restore that reports success leaves the bytes
of the blobs, whatever was at the path and in whatever order the segments were written, and it
truncates the file at most once and not after data was written to it, when no other file that is
written is a name of the same inode. -/
theorem restore_reproduces
    (h : Restores env config b mi leadsTo fingerprint batchSize fs items log fs')
    (hpaths : (items.map fun g => g.path).Nodup) (hitem : item ∈ items) (hfull : item.changed = none)
    (hsize : item.node.metadata.size = (item.blobs.map fun id => (plain id).length).sum)
    (hstored : item.Stored env b mi plain)
    (hlinks : item.LinksSound env b mi plain fingerprint (fs.view leadsTo) items)
    (halone : WrittenAlone fingerprint fs items (item.writtenAt fingerprint items)) :
    (∃ i, fs'.entry item.path = .file i ∧ fs'.bytes i = item.content plain) ∧
      (fs.opsOn (item.writtenAt fingerprint items) log).count .truncate ≤ 1 ∧
      NeverTruncatesData (fs.opsOn (item.writtenAt fingerprint items) log) := by
  refine h.spec hpaths hitem ⟨hsize, hstored, fun changed hchanged => ?_⟩ hlinks halone
  rw [hfull] at hchanged
  cases hchanged

/-- **A selective restore leaves the same file as a full one.** The plan comes from the comparison
of a local file, and the restores may have other files, other batches and other orders of the
writes, when in each of them no other file that is written is a name of the same inode. -/
theorem selective_eq_full {path : Path} {node : Node} {changed : List Nat} {i : Nat}
    {modified : Option Int} {strategy : Strategy} {verify : Bool} {config' : RestoreConfig}
    {batchSize' : Nat} {fs₂ fs₂' : LocalFs} {items₂ : List RestoreItem}
    {log₂ : List (Path × FileOp)} (hlocal : fs.entry path = .file i)
    (hplan : shouldRestoreNode env.fromContent (mi.getData env.toIndexEnv) strategy verify node
      (some ⟨(fs.bytes i).length, modified⟩) (some (fs.bytes i)) = some (.selectiveRestore changed))
    (hhash : ∀ id ∈ node.blobs.getD [], ∀ data, env.fromContent data = id → data = plain id)
    (hsize : node.metadata.size = ((node.blobs.getD []).map fun id => (plain id).length).sum)
    (hstored : RestoreItem.Stored env b mi plain ⟨path, node, none⟩)
    (hselective : Restores env config b mi leadsTo fingerprint batchSize fs items log fs')
    (hpaths : (items.map fun g => g.path).Nodup) (hitem : ⟨path, node, some changed⟩ ∈ items)
    (hlinks : RestoreItem.LinksSound env b mi plain fingerprint (fs.view leadsTo) items
      ⟨path, node, some changed⟩)
    (halone : WrittenAlone fingerprint fs items
      (RestoreItem.writtenAt fingerprint items ⟨path, node, some changed⟩))
    (hfull : Restores env config' b mi leadsTo fingerprint batchSize' fs₂ items₂ log₂ fs₂')
    (hpaths₂ : (items₂.map fun g => g.path).Nodup) (hitem₂ : ⟨path, node, none⟩ ∈ items₂)
    (hlinks₂ : RestoreItem.LinksSound env b mi plain fingerprint (fs₂.view leadsTo) items₂
      ⟨path, node, none⟩)
    (halone₂ : WrittenAlone fingerprint fs₂ items₂
      (RestoreItem.writtenAt fingerprint items₂ ⟨path, node, none⟩)) :
    ∃ i j, fs'.entry path = .file i ∧ fs₂'.entry path = .file j ∧ fs'.bytes i = fs₂'.bytes j := by
  obtain ⟨m, data, hm, hlen, hdata, hverify, -⟩ := shouldRestoreNode_selective hplan
  cases hm
  cases hdata
  have hview : fs.view leadsTo path = .file (fs.bytes i) := by
    rw [LocalFs.view, hlocal]
  have hfaithful : RestoreItem.Faithful env b mi plain (fs.view leadsTo)
      ⟨path, node, some changed⟩ := by
    refine ⟨hsize, hstored, fun changed' hchanged => ?_⟩
    cases hchanged
    exact ⟨fs.bytes i, hview, hlen, hverify, hhash⟩
  have hfaithful₂ : RestoreItem.Faithful env b mi plain (fs₂.view leadsTo) ⟨path, node, none⟩ :=
    ⟨hsize, hstored, fun changed' hchanged => by cases hchanged⟩
  obtain ⟨k, hentry, hbytes⟩ := (hselective.spec hpaths hitem hfaithful hlinks halone).1
  obtain ⟨k₂, hentry₂, hbytes₂⟩ := (hfull.spec hpaths₂ hitem₂ hfaithful₂ hlinks₂ halone₂).1
  exact ⟨k, k₂, hentry, hentry₂, hbytes.trans hbytes₂.symm⟩

end Restores

/-! ## Files of two blobs -/

/-- A repository with a pack of two data blobs. -/
def restoreBackend : Backend := ⟨AList.insert 20 [1, 5, 1, 6] ∅, ∅, ∅, ∅⟩

/-- A hash for which no other bytes have the IDs of the two blobs. -/
def restoreEnv : Env :=
  { sampleEnv with fromContent := fun bs => if bs = [5] then 5 else if bs = [6] then 6 else 0 }

def restoreIndex : MasterIndex :=
  (MasterIndex.new.addPackLocked sampleEnv.toIndexEnv 20 [⟨5, .data, 0, 2, 1⟩, ⟨6, .data, 2, 2, 1⟩]
    false).1

def restoreConfig : RestoreConfig := ⟨⟨0, 100⟩, 100, false, 1, 1⟩

/-- The file of the two blobs. -/
def restoreItem (changed : Option (List Nat)) : RestoreItem :=
  ⟨[.normal [97]], { name := "a", metadata := { size := 2 }, blobs := some [5, 6] }, changed⟩

/-- A second file, which is empty. -/
def emptyItem : RestoreItem :=
  ⟨[.normal [98]], { name := "b", metadata := { size := 0 }, blobs := some [] }, none⟩

/-- A target in which the paths are names of one file. -/
def restoreFs (names : List Path) (bytes : Bytes) : LocalFs :=
  ⟨fun path => if path ∈ names then .file 0 else .absent, fun _ => bytes, fun _ => 0⟩

/-- A target in which the two files are names of one file. -/
def oneFile (bytes : Bytes) : LocalFs := restoreFs [[.normal [97]], [.normal [98]]] bytes

/-- No path leads anywhere else. -/
def noLeads (path : Path) (_ : Bytes) : Path := path

theorem restoreFs_entry {names : List Path} {path : Path} (bytes : Bytes) (h : path ∈ names) :
    (restoreFs names bytes).entry path = .file 0 := if_pos h

theorem restoreFs_fresh (names : List Path) (bytes : Bytes) :
    ∀ q, (restoreFs names bytes).entry q ≠ .file 1 := by
  intro q
  dsimp only [restoreFs]
  split
  · exact fun h => by cases h
  · exact fun h => by cases h

/-- The lookup of a blob in the index of the two blobs. -/
abbrev restoreGet : ID → Option BlobLocator := restoreIndex.getData restoreEnv.toIndexEnv

/-- The blobs in the index. -/
theorem getData_of_mem {id : ID} (hid : id ∈ ([5, 6] : List ID)) :
    (id = 5 ∧ restoreGet id = some ⟨20, 0, 2, 1, .data⟩) ∨
      id = 6 ∧ restoreGet id = some ⟨20, 2, 2, 1, .data⟩ := by
  rcases List.mem_pair.mp hid with rfl | rfl
  · exact Or.inl ⟨rfl, by decide⟩
  · exact Or.inr ⟨rfl, by decide⟩

theorem isSome_getData {id : ID} (hid : id ∈ ([5, 6] : List ID)) : (restoreGet id).isSome = true := by
  rcases getData_of_mem hid with ⟨-, hget⟩ | ⟨-, hget⟩
  · rw [hget]
    rfl
  · rw [hget]
    rfl

/-- The state before anything is written. -/
def restoreUnwritten (opening : List Nat) (tasks : List RestoreTask) : RestoreState :=
  ⟨fun _ => [], fun _ => .new 1, fun _ => false, opening, tasks, false⟩

/-- The state after the data is written to the file. -/
def restoreWritten (ops : List FileOp) (tasks : List RestoreTask) : RestoreState :=
  { (restoreUnwritten [] []).handled 0 0 ((FileHandleCache.new 1).evict.insert 0) true ops
    with tasks := tasks }

/-- The steps of a batch. -/
abbrev BatchStep (plans : List FileRestorePlan) (reqs : List PackRequest)
    (entries : Nat → LocalEntry) : RestoreState → Unit → RestoreState → Prop :=
  RestoreState.Step restoreEnv restoreConfig restoreBackend plans reqs entries

section Batch

variable {plans : List FileRestorePlan} {plan : FileRestorePlan} {reqs : List PackRequest}
  {segment : PackSegment} {bytes : Bytes} {entries : Nat → LocalEntry} {ops : List FileOp}
  {writes : List (Bytes × Nat)}

/-- A run over one segment: when the first loop is done the segment is read and decoded at once, and
its data is written to the first file. -/
theorem run_segment {s : RestoreState} {ls : List Unit} {cache : FileHandleCache}
    (hfirst : Run (BatchStep plans reqs entries) (.start restoreConfig plans [segment]) ls s)
    (hopening : s.opening = []) (htasks : s.tasks = [.waiting segment])
    (hread : restoreBackend.packs.lookup segment.packId = some bytes)
    (hblobs : segment.blobs.reverse ≠ []) (hpop : (popBatch 100 0 segment.blobs.reverse).2 = [])
    (hdecode : ((popBatch 100 0 segment.blobs.reverse).1.mapM (decodeTargets restoreEnv reqs segment
      (readRange bytes segment.minOffset (segment.maxOffset - segment.minOffset)))).map fileBatches =
        some [(0, writes)])
    (hplan : plans[0]? = some plan)
    (hhandle : GetHandle false plan 0 (contentOf (entries 0) (s.ops 0)) (s.caches 0) (s.initialized 0)
      cache true ops true) :
    ∃ ls, Run (BatchStep plans reqs entries) (.start restoreConfig plans [segment]) ls
      { s.handled 0 0 cache true (ops ++ writeOps writes) with tasks := [] } := by
  obtain ⟨data, hdata⟩ : ∃ data,
      readRange bytes segment.minOffset (segment.maxOffset - segment.minOffset) = data := ⟨_, rfl⟩
  rw [hdata] at hdecode
  obtain ⟨decoded, hdecode, hgroups⟩ := Option.map_eq_some_iff.mp hdecode
  have hreads : BatchStep plans reqs entries s ()
      { s with tasks := [] ++ .running segment data segment.blobs.reverse [] :: [] } :=
    hdata ▸ .read hopening htasks hread
  have hdecodes : BatchStep plans reqs entries
      { s with tasks := [] ++ .running segment data segment.blobs.reverse [] :: [] } ()
      { s with
        tasks := [] ++ .running segment data (popBatch 100 0 segment.blobs.reverse).2
          (fileBatches decoded) :: [] } :=
    .decode rfl hblobs hdecode
  rw [hpop, hgroups] at hdecodes
  have hwrites : BatchStep plans reqs entries
      { s with tasks := [] ++ .running segment data [] ([] ++ (0, writes) :: []) :: [] } ()
      { s.handled 0 0 cache true (ops ++ writeOps writes) with
        tasks := [] ++ .running segment data [] ([] ++ []) :: [] } :=
    .write rfl hplan hhandle
  have hfinish : BatchStep plans reqs entries
      { s.handled 0 0 cache true (ops ++ writeOps writes) with
        tasks := [] ++ .running segment data [] ([] ++ []) :: [] } ()
      { s.handled 0 0 cache true (ops ++ writeOps writes) with tasks := [] ++ [] } :=
    .finish rfl
  exact ⟨_, (((hfirst.snoc hreads).snoc hdecodes).snoc hwrites).snoc hfinish⟩

/-- A run over one file and one segment. -/
theorem run_single (hopen : needsOpening plan (entries 0) = false)
    (hread : restoreBackend.packs.lookup segment.packId = some bytes)
    (hblobs : segment.blobs.reverse ≠ []) (hpop : (popBatch 100 0 segment.blobs.reverse).2 = [])
    (hdecode : ((popBatch 100 0 segment.blobs.reverse).1.mapM (decodeTargets restoreEnv reqs segment
      (readRange bytes segment.minOffset (segment.maxOffset - segment.minOffset)))).map fileBatches =
        some [(0, writes)])
    (hhandle : GetHandle false plan 0 (entries 0) (.new 1) false
      ((FileHandleCache.new 1).evict.insert 0) true ops true) :
    ∃ ls, Run (BatchStep [plan] reqs entries) (.start restoreConfig [plan] [segment]) ls
      (restoreWritten (ops ++ writeOps writes) []) := by
  have hskip : BatchStep [plan] reqs entries (.start restoreConfig [plan] [segment]) ()
      (restoreUnwritten [] [.waiting segment]) :=
    .skip rfl rfl hopen
  have hfirst : Run (BatchStep [plan] reqs entries) (.start restoreConfig [plan] [segment]) [()]
      (restoreUnwritten [] [.waiting segment]) := Run.nil.snoc hskip
  have hrun := run_segment hfirst rfl rfl hread hblobs hpop hdecode rfl hhandle
  exact hrun

end Batch

section Sample

variable {entries : Nat → LocalEntry} {bytes : Bytes} {changed : Option (List Nat)}
  {segment : PackSegment} {ops : List FileOp}

/-- A run over a batch of files and one segment. -/
abbrev BatchRuns (files : List PlannedFile) (segment : PackSegment) (entries : Nat → LocalEntry)
    (s : RestoreState) : Prop :=
  ∃ ls, Run (BatchStep (files.map (PlannedFile.plan restoreGet)) (batchRequests restoreGet files)
      entries)
    (.start restoreConfig (files.map (PlannedFile.plan restoreGet)) [segment]) ls s

/-- The segment of the two blobs. -/
abbrev twoBlobs : PackSegment :=
  ⟨20, 0, 4, [(5, ⟨20, 0, 2, 1, .data⟩), (6, ⟨20, 2, 2, 1, .data⟩)]⟩

/-- The segment of the second blob. -/
abbrev secondBlob : PackSegment := ⟨20, 2, 4, [(6, ⟨20, 2, 2, 1, .data⟩)]⟩

/-- The file is written as a whole. -/
theorem run_full (hentry : entries 0 = .file bytes) :
    BatchRuns [⟨restoreItem none, false⟩] twoBlobs entries
      (restoreWritten ([.truncate, .setLen 2] ++ writeOps [([6], 1), ([5], 0)]) []) := by
  refine run_single (by rw [hentry]; rfl) rfl (by decide) (by decide) (by decide) ?_
  rw [hentry]
  exact .create (by decide) rfl (.sized (fun h => by cases h) (by decide) (by decide) fun _ => rfl)

/-- One blob of the file is written. -/
theorem run_selective (hentry : entries 0 = .file bytes) :
    BatchRuns [⟨restoreItem (some [1]), false⟩] secondBlob entries
      (restoreWritten ([] ++ writeOps [([6], 1)]) []) :=
  run_single (by rw [hentry]; rfl) rfl (by decide) (by decide) (by decide)
    (.selective (by decide) rfl hentry)

/-- The file and the empty one in one batch. -/
abbrev pairFiles (changed : Option (List Nat)) : List PlannedFile :=
  [⟨restoreItem changed, false⟩, ⟨emptyItem, false⟩]

/-- The empty file is created in the first loop, and then data is written to the other one. -/
def pairWritten (ops : List FileOp) (tasks : List RestoreTask) : RestoreState :=
  { ((restoreUnwritten [] []).handled 0 1 ((FileHandleCache.new 1).evict.insert 1) true
      [.truncate]).handled 0 0 (((FileHandleCache.new 1).evict.insert 1).evict.insert 0) true ops with
    tasks := tasks }

/-- The first loop over the two files. -/
theorem run_first
    (hopen : needsOpening (PlannedFile.plan restoreGet ⟨restoreItem changed, false⟩) (.file bytes) =
      false)
    (hentry : entries 0 = .file bytes) (hentry' : entries 1 = .file bytes) :
    Run (BatchStep ((pairFiles changed).map (PlannedFile.plan restoreGet))
        (batchRequests restoreGet (pairFiles changed)) entries)
      (.start restoreConfig ((pairFiles changed).map (PlannedFile.plan restoreGet)) [segment]) [(), ()]
      ((restoreUnwritten [] [.waiting segment]).handled 0 1 ((FileHandleCache.new 1).evict.insert 1)
        true [.truncate]) := by
  have hskip : BatchStep ((pairFiles changed).map (PlannedFile.plan restoreGet))
      (batchRequests restoreGet (pairFiles changed)) entries
      (.start restoreConfig ((pairFiles changed).map (PlannedFile.plan restoreGet)) [segment]) ()
      (restoreUnwritten [1] [.waiting segment]) :=
    .skip rfl rfl (by change needsOpening _ (entries 0) = false; rw [hentry]; exact hopen)
  have hhandle : GetHandle false (PlannedFile.plan restoreGet ⟨emptyItem, false⟩) 1 (entries 1) (.new 1)
      false ((FileHandleCache.new 1).evict.insert 1) true [.truncate] true := by
    rw [hentry']
    exact .create (by decide) rfl (.empty (fun h => by cases h) rfl)
  have hopens : needsOpening (PlannedFile.plan restoreGet ⟨emptyItem, false⟩) (entries 1) = true := by
    rw [hentry']
    rfl
  exact (Run.nil.snoc hskip).snoc (@RestoreState.Step.openFile _ restoreConfig _ _ _ _
    (restoreUnwritten [1] [.waiting segment]) 1 [] _ _ _ true _ rfl rfl hopens hhandle)

/-- A batch whose operations are all at names of one inode is restored, and what is written ends up
there. -/
theorem restores_of_run {size i : Nat} {fs : LocalFs} {items : List RestoreItem}
    {files : List PlannedFile} {s : RestoreState} {log : List (Path × FileOp)}
    (hbatches : batchFiles size [] ((planItems (fun _ => 0) ∅ items).map Prod.fst) = [files])
    (hlinks : pendingLinks (planItems (fun _ => 0) ∅ items) = [])
    (hids : ∀ item ∈ items, item.blobs ⊆ [5, 6])
    (hsegments : allSegments restoreConfig.segments (packBlobs (batchRequests restoreGet files)) =
      [segment])
    (hruns : BatchRuns files segment (entriesOf files (fs.view noLeads)) s)
    (hdone : s.Done) (hok : s.failed = false)
    (hlog : ∀ path, LocalFs.opsAt path log = batchOps files s path)
    (hnames : ∀ x ∈ log, fs.entry x.1 = .file i ∧ x.2 ≠ .remove) (hfresh : ∀ q, fs.entry q ≠ .file 1) :
    ∃ fs', Restores restoreEnv restoreConfig restoreBackend restoreIndex noLeads (fun _ => 0) size fs
        items log fs' ∧ fs'.entry = fs.entry ∧
      contentOf (.file (fs.bytes i)) (log.map Prod.snd) = .file (fs'.bytes i) := by
  obtain ⟨ls, hrun⟩ := hruns
  rw [← hsegments] at hrun
  obtain ⟨fs', hdoes, hsame, hcontent⟩ := LocalFs.exists_does_of_names log fs hnames hfresh
  have hbatch := RestoresBatches.cons (List.Perm.refl _) hrun hdone hok hlog hdoes .nil
  rw [List.append_nil, ← hbatches] at hbatch
  refine ⟨fs', ⟨fun item hitem id hid => isSome_getData (hids item hitem hid), fs', hbatch, ?_⟩, hsame,
    hcontent⟩
  rw [hlinks]
  exact .nil

/-- A run over the file is a restore of it, in a target in which the file has another name. -/
theorem restores_single
    (hsegments : allSegments restoreConfig.segments
      (packBlobs (batchRequests restoreGet [⟨restoreItem changed, false⟩])) = [segment])
    (hruns : ∀ entries : Nat → LocalEntry, entries 0 = .file [5, 9] →
      BatchRuns [⟨restoreItem changed, false⟩] segment entries (restoreWritten ops []))
    (hops : .remove ∉ ops) :
    ∃ log fs', Restores restoreEnv restoreConfig restoreBackend restoreIndex noLeads (fun _ => 0) 1
      (restoreFs [[.normal [97]], [.normal [99]]] [5, 9]) [restoreItem changed] log fs' := by
  have hentry : (restoreFs [[.normal [97]], [.normal [99]]] [5, 9]).entry [.normal [97]] = .file 0 :=
    restoreFs_entry _ List.mem_cons_self
  have hlog : ∀ path, LocalFs.opsAt path (ops.map fun op => (([.normal [97]] : Path), op)) =
      batchOps [⟨restoreItem changed, false⟩] (restoreWritten ops []) path := by
    intro path
    rw [LocalFs.opsAt_map]
    by_cases hpath : [.normal [97]] = path
    · subst hpath
      rfl
    · rw [if_neg hpath, batchOps_of_notMem fun hmem => hpath (List.mem_singleton.mp hmem).symm]
  obtain ⟨fs', hrestores, -⟩ := @restores_of_run _ 1 0 _ [restoreItem changed] _ _ _ rfl rfl
    (by simp [restoreItem, RestoreItem.blobs]) hsegments (hruns _ rfl) ⟨rfl, rfl⟩ rfl hlog
    (fun x hx => by
      obtain ⟨op, hop, rfl⟩ := List.mem_map.mp hx
      exact ⟨hentry, fun heq => hops (heq ▸ hop)⟩) (restoreFs_fresh _ _)
  exact ⟨_, fs', hrestores⟩

/-- A run over the two files is a restore of them, and what is written ends up in the one local file.
-/
theorem restores_pair
    (hsegments : allSegments restoreConfig.segments
      (packBlobs (batchRequests restoreGet (pairFiles changed))) = [segment])
    (hruns : ∀ entries : Nat → LocalEntry, entries 0 = .file bytes → entries 1 = .file bytes →
      BatchRuns (pairFiles changed) segment entries (pairWritten ops []))
    (hops : .remove ∉ ops) :
    ∃ fs', Restores restoreEnv restoreConfig restoreBackend restoreIndex noLeads (fun _ => 0) 2
      (oneFile bytes) [restoreItem changed, emptyItem]
      (([.normal [98]], .truncate) :: ops.map fun op => ([.normal [97]], op)) fs' ∧
    fs'.entry [.normal [97]] = .file 0 ∧ fs'.entry [.normal [98]] = .file 0 ∧
    contentOf (.file []) ops = .file (fs'.bytes 0) := by
  have hentry : ∀ path ∈ [([.normal [97]] : Path), [.normal [98]]],
      (oneFile bytes).entry path = .file 0 := fun path hpath => restoreFs_entry _ hpath
  have hlog : ∀ path, LocalFs.opsAt path
      (([.normal [98]], .truncate) :: ops.map fun op => (([.normal [97]] : Path), op)) =
        batchOps (pairFiles changed) (pairWritten ops []) path := by
    intro path
    rw [← List.singleton_append, LocalFs.opsAt_append, LocalFs.opsAt_map]
    by_cases hpath : [.normal [97]] = path
    · subst hpath
      rfl
    · rw [if_neg hpath, List.append_nil]
      by_cases hpath' : [.normal [98]] = path
      · subst hpath'
        rfl
      · rw [batchOps_of_notMem, LocalFs.opsAt_eq_nil]
        · exact fun hmem => hpath' (List.mem_singleton.mp hmem).symm
        · intro hmem
          rcases List.mem_pair.mp hmem with heq | heq
          · exact hpath heq.symm
          · exact hpath' heq.symm
  obtain ⟨fs', hrestores, hsame, hcontent⟩ := @restores_of_run _ 2 0 (oneFile bytes)
    [restoreItem changed, emptyItem] _ _ _ rfl rfl
    (by simp [restoreItem, emptyItem, RestoreItem.blobs]) hsegments (hruns _ rfl rfl) ⟨rfl, rfl⟩ rfl hlog
    (fun x hx => by
      rcases List.mem_cons.mp hx with rfl | hx
      · exact ⟨hentry _ (List.mem_cons_of_mem _ List.mem_cons_self), nofun⟩
      · obtain ⟨op, hop, rfl⟩ := List.mem_map.mp hx
        exact ⟨hentry _ List.mem_cons_self, fun heq => hops (heq ▸ hop)⟩) (restoreFs_fresh _ _)
  rw [List.map_cons, List.map_map, show (Prod.snd ∘ fun op => (([.normal [97]] : Path), op)) = id from
    rfl, List.map_id] at hcontent
  exact ⟨fs', hrestores, hsame ▸ hentry _ List.mem_cons_self,
    hsame ▸ hentry _ (List.mem_cons_of_mem _ List.mem_cons_self), hcontent⟩

end Sample

theorem sample_stored (changed : Option (List Nat)) :
    (restoreItem changed).Stored restoreEnv restoreBackend restoreIndex samplePlain := by
  intro id hid l hl
  rcases getData_of_mem hid with ⟨rfl, hget⟩ | ⟨rfl, hget⟩ <;> cases hget.symm.trans hl
  · exact ⟨⟨[1, 5, 1, 6], rfl, [1, 5], ⟨[], [1, 6], rfl, rfl, rfl⟩, List.cons_ne_nil _ _, rfl⟩, rfl⟩
  · exact ⟨⟨[1, 5, 1, 6], rfl, [1, 6], ⟨[1, 5], [], rfl, rfl, rfl⟩, List.cons_ne_nil _ _, rfl⟩, rfl⟩

theorem sample_linksSound (changed : Option (List Nat)) (fs : LocalFs) :
    (restoreItem changed).LinksSound restoreEnv restoreBackend restoreIndex samplePlain (fun _ => 0)
      (fs.view noLeads) [restoreItem changed] :=
  fun _ hg _ hne => absurd (List.mem_singleton.mp hg) hne

theorem sample_writtenAlone (changed : Option (List Nat)) (fs : LocalFs) :
    WrittenAlone (fun _ => 0) fs [restoreItem changed]
      ((restoreItem changed).writtenAt (fun _ => 0) [restoreItem changed]) := by
  intro x hx _ hne
  rw [List.mem_singleton.mp hx] at hne
  exact absurd rfl hne

theorem sample_restore_reproduces : ∃ log fs',
    Restores restoreEnv restoreConfig restoreBackend restoreIndex noLeads (fun _ => 0) 1
      (restoreFs [[.normal [97]], [.normal [99]]] [5, 9]) [restoreItem none] log fs' ∧
    (∃ i, fs'.entry [.normal [97]] = .file i ∧ fs'.bytes i = [5, 6]) ∧
    ((restoreFs [[.normal [97]], [.normal [99]]] [5, 9]).opsOn [.normal [97]] log).count .truncate ≤
      1 ∧
    NeverTruncatesData
      ((restoreFs [[.normal [97]], [.normal [99]]] [5, 9]).opsOn [.normal [97]] log) := by
  obtain ⟨log, fs', h⟩ := restores_single rfl (fun _ => run_full) (by decide)
  exact ⟨log, fs', h, restore_reproduces h (List.nodup_singleton _) (List.mem_singleton_self _) rfl
    (by decide) (sample_stored none) (sample_linksSound none _) (sample_writtenAlone none _)⟩

/-- No other bytes have the IDs of the two blobs. -/
theorem restoreEnv_collisionFree : ∀ id ∈ ([5, 6] : List ID), ∀ data,
    restoreEnv.fromContent data = id → data = samplePlain id := by
  intro id hid data hdata
  dsimp only [restoreEnv] at hdata
  split at hdata
  · rename_i hdata5
    rw [← hdata, hdata5]
    rfl
  · split at hdata
    · rename_i hdata6
      rw [← hdata, hdata6]
      rfl
    · rw [← hdata] at hid
      exact absurd hid (by decide)

theorem sample_selective_eq_full : ∃ log fs' log₂ fs₂',
    Restores restoreEnv restoreConfig restoreBackend restoreIndex noLeads (fun _ => 0) 1
      (restoreFs [[.normal [97]], [.normal [99]]] [5, 9]) [restoreItem (some [1])] log fs' ∧
    Restores restoreEnv restoreConfig restoreBackend restoreIndex noLeads (fun _ => 0) 1
      (restoreFs [[.normal [97]], [.normal [99]]] [5, 9]) [restoreItem none] log₂ fs₂' ∧
    ∃ i j, fs'.entry [.normal [97]] = .file i ∧ fs₂'.entry [.normal [97]] = .file j ∧
      fs'.bytes i = fs₂'.bytes j := by
  obtain ⟨log₂, fs₂', hfull⟩ := restores_single rfl (fun _ => run_full) (by decide)
  obtain ⟨log, fs', hselective⟩ := restores_single rfl (fun _ => run_selective) (by decide)
  have hplan : shouldRestoreNode restoreEnv.fromContent (restoreGet)
      .overwrite true (restoreItem none).node (some ⟨[(5 : UInt8), 9].length, none⟩) (some [5, 9]) =
        some (.selectiveRestore [1]) := by
    decide
  exact ⟨log, fs', log₂, fs₂', hselective, hfull, selective_eq_full
    (restoreFs_entry _ List.mem_cons_self) hplan restoreEnv_collisionFree (by decide)
    (sample_stored none) hselective (List.nodup_singleton _) (List.mem_singleton_self _)
    (sample_linksSound _ _) (sample_writtenAlone _ _) hfull (List.nodup_singleton _)
    (List.mem_singleton_self _) (sample_linksSound _ _) (sample_writtenAlone _ _)⟩

/-! ## Two restored files that are one local file -/

/-- Both files are restored as a whole. -/
theorem pair_full (bytes : Bytes) : ∃ log fs', Restores restoreEnv restoreConfig restoreBackend
      restoreIndex noLeads (fun _ => 0) 2 (oneFile bytes) [restoreItem none, emptyItem] log fs' ∧
    fs'.entry [.normal [97]] = .file 0 ∧ fs'.entry [.normal [98]] = .file 0 ∧ fs'.bytes 0 = [5, 6] ∧
    ((oneFile bytes).opsOn [.normal [98]] log).count .truncate = 2 := by
  have hruns : ∀ entries : Nat → LocalEntry, entries 0 = .file bytes → entries 1 = .file bytes →
      BatchRuns (pairFiles none) twoBlobs entries
        (pairWritten ([.truncate, .setLen 2] ++ writeOps [([6], 1), ([5], 0)]) []) := by
    intro entries hentry hentry'
    have hhandle : GetHandle false (PlannedFile.plan restoreGet ⟨restoreItem none, false⟩) 0 (entries 0)
        ((FileHandleCache.new 1).evict.insert 1) false
        (((FileHandleCache.new 1).evict.insert 1).evict.insert 0) true [.truncate, .setLen 2] true := by
      rw [hentry]
      exact .create (by decide) rfl (.sized (fun h => by cases h) (by decide) (by decide) fun _ => rfl)
    have hfirst := @run_first _ _ none twoBlobs rfl hentry hentry'
    have hwritten := @run_segment _ _ _ _ [1, 5, 1, 6] _ _ [([6], 1), ([5], 0)] _ _ _ hfirst rfl rfl rfl
      (by decide) (by decide) (by decide) rfl hhandle
    exact hwritten
  obtain ⟨fs', hrestores, hname, hname', hcontent⟩ := restores_pair rfl hruns (by decide)
  have hbytes : LocalEntry.file [5, 6] = .file (fs'.bytes 0) := hcontent
  exact ⟨_, fs', hrestores, hname, hname', (LocalEntry.file.inj hbytes).symm, rfl⟩

/-- One blob of the file is restored, and the empty file. -/
theorem pair_selective : ∃ log fs', Restores restoreEnv restoreConfig restoreBackend restoreIndex
      noLeads (fun _ => 0) 2 (oneFile [5, 5]) [restoreItem (some [1]), emptyItem] log fs' ∧
    fs'.entry [.normal [97]] = .file 0 ∧ fs'.bytes 0 = [0, 6] := by
  have hruns : ∀ entries : Nat → LocalEntry, entries 0 = .file [5, 5] → entries 1 = .file [5, 5] →
      BatchRuns (pairFiles (some [1])) secondBlob entries
        (pairWritten ([] ++ writeOps [([6], 1)]) []) := by
    intro entries hentry hentry'
    have hfirst := @run_first _ _ (some [1]) secondBlob rfl hentry hentry'
    have hwritten := @run_segment _ _ _ _ [1, 5, 1, 6] _ _ [([6], 1)] _ _ _ hfirst rfl rfl rfl
      (by decide) (by decide) (by decide) rfl (.selective (by decide) rfl hentry)
    exact hwritten
  obtain ⟨fs', hrestores, hname, -, hcontent⟩ := restores_pair rfl hruns (by decide)
  have hbytes : LocalEntry.file [0, 6] = .file (fs'.bytes 0) := hcontent
  exact ⟨_, fs', hrestores, hname, (LocalEntry.file.inj hbytes).symm⟩

/-- **Two restored files that are names of one local file overwrite each other.** Both are to be
restored as a whole, since the local file has another size. The second one is to be empty; it is
truncated twice and has the bytes of the first one at the end. -/
theorem restore_overwrites : ∃ log fs', Restores restoreEnv restoreConfig restoreBackend restoreIndex
      noLeads (fun _ => 0) 2 (oneFile [9]) [restoreItem none, emptyItem] log fs' ∧
    (∀ item ∈ [restoreItem none, emptyItem], shouldRestoreNode restoreEnv.fromContent restoreGet
      .overwrite true item.node (some ⟨[(9 : UInt8)].length, none⟩) (some [9]) = some .fullRestore) ∧
    ([restoreItem none, emptyItem].map fun g => g.path).Nodup ∧
    emptyItem.node.metadata.size = (emptyItem.blobs.map fun id => (samplePlain id).length).sum ∧
    emptyItem.Stored restoreEnv restoreBackend restoreIndex samplePlain ∧
    emptyItem.LinksSound restoreEnv restoreBackend restoreIndex samplePlain (fun _ => 0)
      ((oneFile [9]).view noLeads) [restoreItem none, emptyItem] ∧
    ¬ ((∃ i, fs'.entry [.normal [98]] = .file i ∧ fs'.bytes i = emptyItem.content samplePlain) ∧
      ((oneFile [9]).opsOn [.normal [98]] log).count .truncate ≤ 1 ∧
      NeverTruncatesData ((oneFile [9]).opsOn [.normal [98]] log)) ∧
    fs'.entry [.normal [98]] = .file 0 ∧ fs'.bytes 0 = [5, 6] ∧ emptyItem.content samplePlain = [] ∧
    ((oneFile [9]).opsOn [.normal [98]] log).count .truncate = 2 := by
  obtain ⟨log, fs', hrestores, -, hentry, hbytes, hcount⟩ := pair_full [9]
  refine ⟨log, fs', hrestores, ?_, by decide, rfl, fun id hid => absurd hid List.not_mem_nil, ?_, ?_,
    hentry, hbytes, rfl, hcount⟩
  · intro item hitem
    rcases List.mem_pair.mp hitem with rfl | rfl <;> rfl
  · -- no link is planned
    intro g hg hpath hne
    rcases List.mem_pair.mp hg with rfl | rfl
    · exact absurd hpath (by decide : ([.normal [97]] : Path) ≠ [.normal [98]])
    · exact absurd rfl hne
  · rintro ⟨-, honce, -⟩
    omega

/-- **A selective restore of them leaves other bytes than a full one.** Both plans are made before the
batch is written. -/
theorem selective_differs : ∃ log fs' log₂ fs₂',
    shouldRestoreNode restoreEnv.fromContent restoreGet
      .overwrite true (restoreItem none).node (some ⟨[(5 : UInt8), 5].length, none⟩) (some [5, 5]) =
        some (.selectiveRestore [1]) ∧
    shouldRestoreNode restoreEnv.fromContent restoreGet
      .overwrite true emptyItem.node (some ⟨[(5 : UInt8), 5].length, none⟩) (some [5, 5]) =
        some .fullRestore ∧
    Restores restoreEnv restoreConfig restoreBackend restoreIndex noLeads (fun _ => 0) 2
      (oneFile [5, 5]) [restoreItem (some [1]), emptyItem] log fs' ∧
    Restores restoreEnv restoreConfig restoreBackend restoreIndex noLeads (fun _ => 0) 2
      (oneFile [5, 5]) [restoreItem none, emptyItem] log₂ fs₂' ∧
    fs'.entry [.normal [97]] = .file 0 ∧ fs'.bytes 0 = [0, 6] ∧
    fs₂'.entry [.normal [97]] = .file 0 ∧ fs₂'.bytes 0 = [5, 6] := by
  obtain ⟨log, fs', hselective, hentry, hbytes⟩ := pair_selective
  obtain ⟨log₂, fs₂', hfull, hentry₂, -, hbytes₂, -⟩ := pair_full [5, 5]
  exact ⟨log, fs', log₂, fs₂', by decide, by decide, hselective, hfull, hentry, hbytes, hentry₂,
    hbytes₂⟩

end Mapache
