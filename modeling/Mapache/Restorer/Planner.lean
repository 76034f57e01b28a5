import Mapache.Restorer.PackRestorer

/-!
# Planning a restore

`should_restore_node` decides how the file of a node is restored. A local file of the right size
whose time differs, or every one with `verify`, is compared blob by blob (`verify_file_content`),
and only the blobs whose range has another hash are restored. The loop of `Restorer::restore` turns
the decision into requests for the blobs of the file, with the offsets that the raw lengths of the
index add up to.

The requests for the blobs of a file are its pieces (`map_fileBlobs`), and a blob that is not among
the changed ones is in its place already (`holdsAt_of_verify`).
-/

set_option autoImplicit false

namespace Mapache

open Lib

/-! ## The decision -/

inductive Strategy where
  | fail
  | overwrite
  | skip
  | newer
  deriving DecidableEq

/-- `RestorePlan`. -/
inductive RestorePlan where
  | skip
  | fullRestore
  | selectiveRestore (changedBlobs : List Nat)
  deriving DecidableEq

/-- What the local metadata says: the length and the time of the last change. -/
structure LocalMetadata where
  len : Nat
  modified : Option Int

/-- The loop of `verify_file_content`: the indices of the blobs whose range of the file has another
hash; `none` if a blob is not in the index or the file is too short. -/
def verifyLoop (fromContent : Bytes → ID) (getData : ID → Option BlobLocator) (bytes : Bytes) :
    Nat → Nat → List ID → Option (List Nat)
  | _, _, [] => some []
  | idx, offset, id :: ids =>
    (getData id).bind fun locator =>
      if locator.rawLength ≠ 0 ∧ bytes.length < offset + locator.rawLength then none
      else
        (verifyLoop fromContent getData bytes (idx + 1) (offset + locator.rawLength) ids).map
          fun changed =>
          if fromContent ((bytes.drop offset).take locator.rawLength) = id then changed
          else idx :: changed

/-- `verify_file_content`. -/
def verifyFileContent (fromContent : Bytes → ID) (getData : ID → Option BlobLocator) (node : Node)
    (bytes : Bytes) : Option (List Nat) :=
  match node.blobs with
  | none => some []
  | some blobs => verifyLoop fromContent getData bytes 0 0 blobs

/-- The comparison of a local file that may be the one of the node; `none` leaves the decision to
the strategy. `bytes` is `none` where the file cannot be read. -/
def compareLocal (fromContent : Bytes → ID) (getData : ID → Option BlobLocator) (verify : Bool)
    (node : Node) (md : LocalMetadata) (bytes : Option Bytes) : Option RestorePlan :=
  if md.len = node.metadata.size then
    if md.modified = node.metadata.modifiedTime ∧ verify = false then some .skip
    else
      (bytes.bind (verifyFileContent fromContent getData node)).map fun changed =>
        if changed = [] then .skip
        else if (node.blobs.getD []).length ≤ changed.length then .fullRestore
        else .selectiveRestore changed
  else none

/-- The decision of the strategy; `none` is an error. -/
def Strategy.decide (strategy : Strategy) (node : Node) (md : LocalMetadata) : Option RestorePlan :=
  match strategy with
  | .overwrite => some .fullRestore
  | .skip => some .skip
  | .newer =>
    match node.metadata.modifiedTime with
    | none => some .fullRestore
    | some repoTime =>
      md.modified.map fun localTime =>
        if localTime < repoTime then .fullRestore
        else if localTime = repoTime ∧ md.len ≠ node.metadata.size then .fullRestore
        else .skip
  | .fail => if node.isDir then some .fullRestore else none

/-- `should_restore_node`, on the metadata of what is at the path, if anything is. -/
def shouldRestoreNode (fromContent : Bytes → ID) (getData : ID → Option BlobLocator)
    (strategy : Strategy)
    (verify : Bool) (node : Node) (md : Option LocalMetadata) (bytes : Option Bytes) :
    Option RestorePlan :=
  match md with
  | none => some .fullRestore
  | some md =>
    if node.isFile then
      (compareLocal fromContent getData verify node md bytes).or (strategy.decide node md)
    else strategy.decide node md

/-- A selective plan comes from the comparison of a file of the right size. -/
theorem shouldRestoreNode_selective {fromContent : Bytes → ID} {getData : ID → Option BlobLocator}
    {strategy : Strategy} {verify : Bool} {node : Node} {md : Option LocalMetadata}
    {bytes : Option Bytes}
    {changed : List Nat}
    (h : shouldRestoreNode fromContent getData strategy verify node md bytes =
      some (.selectiveRestore changed)) :
    ∃ m data, md = some m ∧ m.len = node.metadata.size ∧ bytes = some data ∧
      verifyFileContent fromContent getData node data = some changed ∧ changed ≠ [] := by
  -- no strategy restores single blobs
  have hdecide : ∀ m, strategy.decide node m ≠ some (.selectiveRestore changed) := by
    intro m hm
    unfold Strategy.decide at hm
    split at hm
    · cases hm
    · cases hm
    · split at hm
      · cases hm
      · obtain ⟨t, -, ht⟩ := Option.map_eq_some_iff.mp hm
        split at ht
        · cases ht
        · split at ht <;> cases ht
    · split at hm <;> cases hm
  unfold shouldRestoreNode at h
  split at h
  · cases h
  · rename_i m
    split at h
    · rcases Option.or_eq_some_iff.mp h with hcompare | ⟨-, hm⟩
      · unfold compareLocal at hcompare
        split at hcompare
        · rename_i hlen
          split at hcompare
          · cases hcompare
          · obtain ⟨changed', hverify, hplan⟩ := Option.map_eq_some_iff.mp hcompare
            obtain ⟨data, hdata, hverify⟩ := Option.bind_eq_some_iff.mp hverify
            split at hplan
            · cases hplan
            · rename_i hne
              split at hplan
              · cases hplan
              · cases hplan
                exact ⟨m, data, rfl, hlen, hdata, hverify, hne⟩
        · cases hcompare
      · exact absurd hm (hdecide m)
    · exact absurd h (hdecide m)

/-! ## The requests of a file -/

/-- The blobs of a file with their locators and offsets. A blob that is not in the index is reported
as an error and left out. -/
def fileBlobs (getData : ID → Option BlobLocator) : Nat → List ID → List (ID × BlobLocator × Nat)
  | _, [] => []
  | offset, id :: ids =>
    match getData id with
    | some locator => (id, locator, offset) :: fileBlobs getData (offset + locator.rawLength) ids
    | none => fileBlobs getData offset ids

/-- A file node that is restored: all of it, or only the changed blobs. -/
structure RestoreItem where
  path : Path
  node : Node
  changed : Option (List Nat)

/-- The blobs of the item, those of an absent list being none. -/
def RestoreItem.blobs (item : RestoreItem) : List ID := item.node.blobs.getD []

/-- A file of a batch. A secondary hard link gets no requests. -/
structure PlannedFile extends RestoreItem where
  isHardlink : Bool

namespace PlannedFile

variable (getData : ID → Option BlobLocator) (f : PlannedFile)

/-- The blobs that are requested. -/
def requested : List (ID × BlobLocator × Nat) :=
  match f.changed with
  | none => fileBlobs getData 0 f.blobs
  | some changed => changed.filterMap fun k => (fileBlobs getData 0 f.blobs)[k]?

/-- The `FileRestorePlan` of the file. -/
def plan : FileRestorePlan where
  path := f.path
  numBlobs :=
    match f.changed with
    | none => if f.isHardlink then 0 else (fileBlobs getData 0 f.blobs).length
    | some changed => changed.length
  size := f.node.metadata.size
  isHardlink := f.isHardlink
  isSelective := f.changed.isSome

/-- The requests of the file with the index `idx`. -/
def requests (idx : Nat) : List PackRequest :=
  if f.isHardlink then []
  else (f.requested getData).map fun x =>
    ⟨x.2.1.packId, x.1, ⟨idx, x.2.2, x.2.1.offset, x.2.1.length, x.2.1.rawLength⟩⟩

end PlannedFile

/-- The requests of a batch of files. -/
def batchRequests (getData : ID → Option BlobLocator) (files : List PlannedFile) : List PackRequest :=
  files.zipIdx.flatMap fun x => x.1.requests getData x.2

section Requests

variable {getData : ID → Option BlobLocator} {plain : ID → Bytes} {files : List PlannedFile}
  {f : PlannedFile}

theorem getData_of_mem_fileBlobs {ids : List ID} {offset : Nat} {x : ID × BlobLocator × Nat}
    (h : x ∈ fileBlobs getData offset ids) : getData x.1 = some x.2.1 ∧ x.1 ∈ ids := by
  induction ids generalizing offset with
  | nil => cases h
  | cons id ids ih =>
    unfold fileBlobs at h
    split at h
    · rename_i locator hget
      rcases List.mem_cons.mp h with rfl | h
      · exact ⟨hget, List.mem_cons_self⟩
      · exact ⟨(ih h).1, List.mem_cons_of_mem _ (ih h).2⟩
    · exact ⟨(ih h).1, List.mem_cons_of_mem _ (ih h).2⟩

theorem mem_requested {x : ID × BlobLocator × Nat} (h : x ∈ f.requested getData) :
    x ∈ fileBlobs getData 0 f.blobs := by
  unfold PlannedFile.requested at h
  split at h
  · exact h
  · obtain ⟨k, -, hk⟩ := List.mem_filterMap.mp h
    exact List.mem_of_getElem? hk

/-- The requests of a batch, file by file. -/
theorem mem_batchRequests {q : PackRequest} : q ∈ batchRequests getData files ↔
    ∃ (i : Nat) (f : PlannedFile), files[i]? = some f ∧ q ∈ f.requests getData i := by
  simp only [batchRequests, List.mem_flatMap, Prod.exists, List.mem_zipIdx_iff_getElem?]
  constructor
  · rintro ⟨f, i, hf, hq⟩
    exact ⟨i, f, hf, hq⟩
  · rintro ⟨i, f, hf, hq⟩
    exact ⟨f, i, hf, hq⟩

theorem mem_requests {q : PackRequest} {i : Nat} : q ∈ f.requests getData i ↔
    f.isHardlink = false ∧ ∃ x ∈ f.requested getData,
      q = ⟨x.2.1.packId, x.1, ⟨i, x.2.2, x.2.1.offset, x.2.1.length, x.2.1.rawLength⟩⟩ := by
  unfold PlannedFile.requests
  cases f.isHardlink with
  | true => simp
  | false => simp [eq_comm]

/-- A request has the locator that the index has for its blob. -/
theorem located_batchRequests (hdata : ∀ id l, getData id = some l → l.blobType = .data) :
    ∀ q ∈ batchRequests getData files, getData q.blobId = some q.locator := by
  intro q hq
  obtain ⟨i, f, -, hq⟩ := mem_batchRequests.mp hq
  obtain ⟨-, x, hx, rfl⟩ := mem_requests.mp hq
  obtain ⟨hget, -⟩ := getData_of_mem_fileBlobs (mem_requested hx)
  have htype := hdata _ _ hget
  rw [hget, PackRequest.locator, ← htype]

/-- The requests for a file of the batch are its own. -/
theorem mem_batchRequests_idx {q : PackRequest} {i : Nat} (hf : files[i]? = some f)
    (hq : q ∈ batchRequests getData files) (hidx : q.request.fileIdx = i) : q ∈ f.requests getData
    i := by
  obtain ⟨j, g, hg, hqg⟩ := mem_batchRequests.mp hq
  obtain ⟨-, x, -, rfl⟩ := mem_requests.mp hqg
  dsimp only at hidx
  subst hidx
  rw [hf] at hg
  cases hg
  exact hqg

end Requests

/-! ## Pieces -/

section Pieces

variable {getData : ID → Option BlobLocator} {plain : ID → Bytes}

/-- **The blobs of a file lie one after the other**, when the index has them with their lengths. -/
theorem map_fileBlobs (ids : List ID) (offset : Nat)
    (hknown : ∀ id ∈ ids, ∃ l, getData id = some l ∧ l.rawLength = (plain id).length) :
    (fileBlobs getData offset ids).map (fun x => (plain x.1, x.2.2)) =
      withOffsets offset (ids.map plain) := by
  induction ids generalizing offset with
  | nil => rfl
  | cons id ids ih =>
    obtain ⟨l, hget, hraw⟩ := hknown id List.mem_cons_self
    have htail := ih (offset + l.rawLength) fun id' hid' => hknown id' (List.mem_cons_of_mem _ hid')
    simp only [fileBlobs, hget, List.map_cons, htail, withOffsets]
    rw [hraw]

/-- **A blob that was not found changed is in its place.** -/
theorem holdsAt_of_verify {fromContent : Bytes → ID} {bytes : Bytes} (ids : List ID) {idx offset : Nat}
    {changed : List Nat}
    (hknown : ∀ id ∈ ids, ∃ l, getData id = some l ∧ l.rawLength = (plain id).length)
    (hhash : ∀ id ∈ ids, ∀ data, fromContent data = id → data = plain id)
    (h : verifyLoop fromContent getData bytes idx offset ids = some changed) :
    (∀ k ∈ changed, idx ≤ k ∧ k < idx + ids.length) ∧
      ∀ k w, (withOffsets offset (ids.map plain))[k]? = some w → idx + k ∉ changed →
        HoldsAt bytes w.2 w.1 := by
  induction ids generalizing idx offset changed with
  | nil =>
    cases h
    exact ⟨fun k hk => (by cases hk), fun k w hw => by cases hw⟩
  | cons id ids ih =>
    obtain ⟨l, hget, hraw⟩ := hknown id List.mem_cons_self
    rw [verifyLoop, hget, Option.bind_some] at h
    split at h
    · cases h
    · rename_i hshort
      obtain ⟨rest, hrest, hchanged⟩ := Option.map_eq_some_iff.mp h
      obtain ⟨hbounds, hholds⟩ := ih (fun id' hid' => hknown id' (List.mem_cons_of_mem _ hid'))
        (fun id' hid' => hhash id' (List.mem_cons_of_mem _ hid')) hrest
      have hsub : ∀ k, k ∈ changed → k = idx ∨ k ∈ rest := by
        intro k hk
        rw [← hchanged] at hk
        split at hk
        · exact Or.inr hk
        · exact List.mem_cons.mp hk
      have hsup : ∀ k ∈ rest, k ∈ changed := by
        intro k hk
        rw [← hchanged]
        split
        · exact hk
        · exact List.mem_cons_of_mem _ hk
      refine ⟨fun k hk => ?_, fun k w hw hk => ?_⟩
      · rw [List.length_cons]
        rcases hsub k hk with rfl | hk
        · omega
        · have hb := hbounds k hk
          omega
      · cases k with
        | zero =>
          -- the first blob: its range has the hash of the blob
          cases hw
          have hsame : fromContent ((bytes.drop offset).take l.rawLength) = id := by
            by_contra hne
            rw [← hchanged, if_neg hne] at hk
            exact hk List.mem_cons_self
          have hslice := hhash id List.mem_cons_self _ hsame
          intro j hj
          dsimp only at hj ⊢
          rw [← hslice, List.getElem?_take_of_lt (by omega), List.getElem?_drop]
        | succ k =>
          have hw' : (withOffsets (offset + l.rawLength) (ids.map plain))[k]? = some w := by
            rw [hraw]
            exact hw
          refine hholds k w hw' fun hmem => hk ?_
          have hadd : idx + (k + 1) = idx + 1 + k := by omega
          rw [hadd]
          exact hsup _ hmem

end Pieces

end Mapache
