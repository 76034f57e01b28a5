import Mapache.Common

/-!
# Reading the data of a node

`SerializedNodeDataReader` of `fs/tree.rs`: the blobs of a file as one string of bytes. A read finds
the blob at its position with a binary search among the starts of the blobs, loads it unless it is
the current one, and copies from it at most what is asked for, so it ends at the latest with the
blob.

An empty blob starts where the next one does. Without empty blobs the reads give, whatever is asked
for, the bytes of the blobs in their order, and only at the end none (`read_spec`).
-/

set_option autoImplicit false

namespace Mapache

open Lib

/-- What the reader uses of the repository: the lengths in the index and `load_blob`. `plain` has
the bytes behind each ID. -/
structure BlobStore where
  plain : ID → Bytes
  rawLength : ID → Option Nat
  loadBlob : ID → Option Bytes
  rawLength_eq : ∀ id len, rawLength id = some len → len = (plain id).length
  loadBlob_eq : ∀ id data, loadBlob id = some data → data = plain id

/-- `slice::binary_search` in increasing numbers: the place of the number, or the one where it would
be inserted. -/
def binarySearch (xs : List Nat) (x : Nat) : Except Nat Nat :=
  match xs.idxOf? x with
  | some i => .ok i
  | none => .error (xs.countP fun y => y < x)

/-- The reader. The blob being loaded is not part of it: a read waits for it. -/
structure SerializedNodeDataReader where
  blobIds : List ID
  blobPrefix : List Nat
  totalLength : Nat
  pos : Nat
  /-- None at first, where the source has `usize::MAX`. -/
  currentBlobIdx : Option Nat
  currentBlob : Bytes

/-- The blob that starts last at or before a position. -/
def blobIndex (starts : List Nat) (pos : Nat) : Nat :=
  match binarySearch starts pos with
  | .ok i => i
  | .error i => i - 1

namespace SerializedNodeDataReader

variable (store : BlobStore)

/-- `SerializedNodeDataReader::new`: an error where the index does not have a blob. -/
def new (blobs : List ID) : Option SerializedNodeDataReader :=
  (blobs.mapM store.rawLength).map fun lens =>
    { blobIds := blobs
      blobPrefix := lens.scanl (fun acc len => acc + len) 0
      totalLength := lens.sum
      pos := 0
      currentBlobIdx := none
      currentBlob := [] }

def blobAt (r : SerializedNodeDataReader) (pos : Nat) : Nat := blobIndex r.blobPrefix pos

/-- The blob becomes the current one. -/
def load (r : SerializedNodeDataReader) (targetIdx : Nat) : Option SerializedNodeDataReader :=
  if r.currentBlobIdx = some targetIdx then some r
  else (r.blobIds[targetIdx]?.bind store.loadBlob).map fun data =>
    { r with currentBlob := data, currentBlobIdx := some targetIdx }

/-- `poll_read` into a buffer of the given length, once the blob is there. Without a result the read
fails or panics. -/
def read (r : SerializedNodeDataReader) (remaining : Nat) :
    Option (Bytes × SerializedNodeDataReader) :=
  if r.totalLength ≤ r.pos ∨ remaining = 0 then some ([], r)
  else
    let targetIdx := r.blobAt r.pos
    (r.load store targetIdx).bind fun r => r.blobPrefix[targetIdx]?.bind fun blobStart =>
      let offset := r.pos - blobStart
      if r.currentBlob.length < offset then none
      else
        let toCopy := min (r.currentBlob.length - offset) remaining
        some ((r.currentBlob.drop offset).take toCopy, { r with pos := r.pos + toCopy })

end SerializedNodeDataReader

/-! ## The blob at a position -/

theorem lt_of_mem_scanl {acc x : Nat} {lens : List Nat}
    (h : x ∈ lens.scanl (fun acc len => acc + len) acc) : acc ≤ x := by
  induction lens generalizing acc with
  | nil => exact (List.mem_singleton.mp h).ge
  | cons len lens ih =>
    rw [List.scanl_cons] at h
    rcases List.mem_cons.mp h with rfl | h
    · exact le_rfl
    · exact (Nat.le_add_right acc len).trans (ih h)

/-- Where the second start is not behind the position, the first one is not the one to find. -/
theorem blobIndex_cons {start first pos : Nat} {starts : List Nat} (hlt : start < pos)
    (hfirst : first ≤ pos) :
    blobIndex (start :: first :: starts) pos = blobIndex (first :: starts) pos + 1 := by
  rw [blobIndex, blobIndex, binarySearch, binarySearch, List.idxOf?_cons,
    if_neg (by simpa using hlt.ne)]
  cases hfound : (first :: starts).idxOf? pos with
  | some i => rfl
  | none =>
    have hne : first ≠ pos := fun h => by
      rw [List.idxOf?_eq_none_iff] at hfound
      exact hfound (h ▸ List.mem_cons_self)
    rw [Option.map_none, List.countP_cons_of_pos (by simpa using hlt),
      List.countP_cons_of_pos (by rw [decide_eq_true_iff]; omega)]
    dsimp only
    omega

/-- **The binary search finds the blob**, when none before it is empty. -/
theorem blobIndex_scanl {acc pos len : Nat} {before after : List Nat}
    (hpos : ∀ l ∈ before, 0 < l) (hle : acc + before.sum ≤ pos) (hlt : pos < acc + before.sum + len) :
    blobIndex ((before ++ len :: after).scanl (fun acc len => acc + len) acc) pos = before.length := by
  induction before generalizing acc with
  | nil =>
    rw [List.sum_nil, Nat.add_zero] at hle hlt
    rw [List.nil_append, List.scanl_cons, blobIndex, binarySearch, List.idxOf?_cons]
    have hbehind : ∀ x ∈ after.scanl (fun acc len => acc + len) (acc + len), pos < x := fun x hx =>
      hlt.trans_le (lt_of_mem_scanl hx)
    by_cases heq : acc = pos
    · rw [if_pos (by simpa using heq)]
      rfl
    · have hnot : (after.scanl (fun acc len => acc + len) (acc + len)).idxOf? pos = none :=
        List.idxOf?_eq_none_iff.mpr fun hmem => absurd (hbehind pos hmem) (lt_irrefl _)
      have hcount : (after.scanl (fun acc len => acc + len) (acc + len)).countP
          (fun y => decide (y < pos)) = 0 :=
        List.countP_eq_zero.mpr fun x hx => by
          have := hbehind x hx
          rw [decide_eq_true_iff]
          omega
      rw [if_neg (by simpa using heq), hnot, Option.map_none,
        List.countP_cons_of_pos (by rw [decide_eq_true_iff]; omega), hcount]
      rfl
  | cons l before ih =>
    have hl := hpos l List.mem_cons_self
    rw [List.sum_cons] at hle hlt
    have hrest : blobIndex ((before ++ len :: after).scanl (fun acc len =>
        acc + len) (acc + l)) pos =
        before.length :=
      ih (fun l' hl' => hpos l' (List.mem_cons_of_mem _ hl')) (by omega) (by omega)
    obtain ⟨rest, hscan⟩ : ∃ rest,
      (before ++ len :: after).scanl (fun acc len => acc + len) (acc + l) =
        (acc + l) :: rest := by
      cases before with
      | nil => exact ⟨_, List.scanl_cons⟩
      | cons => exact ⟨_, List.scanl_cons⟩
    rw [hscan] at hrest
    rw [List.cons_append, List.scanl_cons, hscan, blobIndex_cons (by omega) (by omega), hrest,
      List.length_cons]

/-- A position is in one of the blobs. -/
theorem exists_blob_at {plain : ID → Bytes} {blobs : List ID} {pos : Nat}
    (h : pos < (blobs.flatMap plain).length) :
    ∃ before id after, blobs = before ++ id :: after ∧ (before.flatMap plain).length ≤ pos ∧
      pos < (before.flatMap plain).length + (plain id).length := by
  induction blobs generalizing pos with
  | nil => cases h
  | cons id blobs ih =>
    rw [List.flatMap_cons, List.length_append] at h
    by_cases hlt : pos < (plain id).length
    · exact ⟨[], id, blobs, rfl, Nat.zero_le _, by rw [List.flatMap_nil, List.length_nil]; omega⟩
    · obtain ⟨before, id', after, rfl, hle, hlt'⟩ :=
        ih (by omega : pos - (plain id).length < (blobs.flatMap plain).length)
      refine ⟨id :: before, id', after, rfl, ?_, ?_⟩
      · rw [List.flatMap_cons, List.length_append]
        omega
      · rw [List.flatMap_cons, List.length_append]
        omega

/-! ## The reads -/

namespace SerializedNodeDataReader

variable {store : BlobStore} {blobs : List ID} {r r' : SerializedNodeDataReader} {bytes : Bytes}
  {remaining idx : Nat}

/-- The reader is somewhere in the data of the blobs, and its current blob is one of them. -/
structure Reading (store : BlobStore) (blobs : List ID) (r : SerializedNodeDataReader) : Prop where
  blobIds : r.blobIds = blobs
  blobPrefix : r.blobPrefix =
    (blobs.map fun id => (store.plain id).length).scanl (fun acc len => acc + len) 0
  totalLength : r.totalLength = (blobs.flatMap store.plain).length
  current : ∀ i, r.currentBlobIdx = some i → ∃ id, blobs[i]? = some id ∧ r.currentBlob = store.plain id

/-- What is still to be read. -/
def rest (store : BlobStore) (r : SerializedNodeDataReader) : Bytes :=
  (r.blobIds.flatMap store.plain).drop r.pos

theorem mapM_rawLength {lens : List Nat} (h : blobs.mapM store.rawLength = some lens) :
    lens = blobs.map fun id => (store.plain id).length := by
  induction blobs generalizing lens with
  | nil =>
    cases h
    rfl
  | cons id blobs ih =>
    rw [List.mapM_cons] at h
    obtain ⟨len, hlen, h⟩ := Option.bind_eq_some_iff.mp h
    obtain ⟨lens', hlens, h⟩ := Option.bind_eq_some_iff.mp h
    cases h
    rw [List.map_cons, ← ih hlens, store.rawLength_eq id len hlen]

theorem sum_length (plain : ID → Bytes) (blobs : List ID) :
    (blobs.map fun id => (plain id).length).sum = (blobs.flatMap plain).length :=
  List.length_flatMap.symm

/-- A new reader is at the start of the data. -/
theorem new_spec (h : new store blobs = some r) : Reading store blobs r ∧ r.pos = 0 := by
  obtain ⟨lens, hlens, rfl⟩ := Option.map_eq_some_iff.mp h
  rw [mapM_rawLength hlens]
  exact ⟨⟨rfl, rfl, sum_length store.plain blobs, nofun⟩, rfl⟩

/-- The blob that is loaded is the one at its place. -/
theorem load_spec (hr : Reading store blobs r) (h : r.load store idx = some r') :
    Reading store blobs r' ∧ r'.pos = r.pos ∧ ∃ id, blobs[idx]? = some id ∧
      r'.currentBlob = store.plain id := by
  unfold load at h
  split at h
  · rename_i hcurrent
    cases h
    exact ⟨hr, rfl, hr.current idx hcurrent⟩
  · obtain ⟨data, hdata, rfl⟩ := Option.map_eq_some_iff.mp h
    obtain ⟨id, hid, hload⟩ := Option.bind_eq_some_iff.mp hdata
    rw [hr.blobIds] at hid
    have heq := store.loadBlob_eq id data hload
    refine ⟨⟨hr.blobIds, hr.blobPrefix, hr.totalLength, ?_⟩, rfl, id, hid, heq⟩
    rintro i ⟨⟩
    exact ⟨id, hid, heq⟩

theorem getElem?_scanl_add (acc : Nat) (before after : List Nat) :
    ((before ++ after).scanl (fun acc len => acc + len) acc)[before.length]? =
    some (acc + before.sum) := by
  induction before generalizing acc with
  | nil =>
    rw [List.nil_append, List.length_nil, List.sum_nil]
    exact List.getElem?_scanl_zero
  | cons l before ih =>
    rw [List.cons_append, List.scanl_cons, List.length_cons, List.getElem?_cons_succ, ih,
      List.sum_cons,
      Nat.add_assoc]

theorem getElem?_blobPrefix {before after : List ID} (hr : Reading store blobs r)
    (hblobs : blobs = before ++ after) :
    r.blobPrefix[before.length]? = some (before.flatMap store.plain).length := by
  have hget := getElem?_scanl_add 0 (before.map fun id => (store.plain id).length)
    (after.map fun id => (store.plain id).length)
  rw [List.length_map, sum_length, Nat.zero_add, ← List.map_append] at hget
  rw [hr.blobPrefix, hblobs, hget]

/-- The blob at a position is the one that has it. -/
theorem blobAt_eq {before after : List ID} {id : ID} {pos : Nat} (hr : Reading store blobs r)
    (hne : ∀ id ∈ blobs, store.plain id ≠ []) (hblobs : blobs = before ++ id :: after)
    (hle : (before.flatMap store.plain).length ≤ pos)
    (hlt : pos < (before.flatMap store.plain).length + (store.plain id).length) :
    r.blobAt pos = before.length := by
  rw [← sum_length] at hle hlt
  have hindex : blobIndex (((before.map fun id => (store.plain id).length) ++
      (store.plain id).length :: after.map fun id => (store.plain id).length).scanl
        (fun acc len => acc + len) 0) pos = (before.map fun id => (store.plain id).length).length := by
    refine blobIndex_scanl (fun len hlen => ?_) (by omega) (by omega)
    obtain ⟨id', hid', rfl⟩ := List.mem_map.mp hlen
    exact List.length_pos_iff.mpr (hne id' (hblobs ▸ List.mem_append_left _ hid'))
  rw [blobAt, hr.blobPrefix, hblobs, List.map_append, List.map_cons, hindex, List.length_map]

/-- **A read takes its bytes from the front of what is left**, and none only at the end. -/
theorem read_spec (hr : Reading store blobs r) (hne : ∀ id ∈ blobs, store.plain id ≠ [])
    (h : r.read store remaining = some (bytes, r')) :
    Reading store blobs r' ∧ r.rest store = bytes ++ r'.rest store ∧ bytes.length ≤ remaining ∧
      (0 < remaining → bytes = [] → r.rest store = []) := by
  unfold read at h
  split at h
  · rename_i hend
    cases h
    refine ⟨hr, rfl, Nat.zero_le _, fun hpos _ => ?_⟩
    rw [rest, hr.blobIds]
    refine List.drop_of_length_le ?_
    have := hr.totalLength
    omega
  · rename_i hmore
    rw [not_or, Nat.not_le] at hmore
    have hlt := hmore.1
    rw [hr.totalLength] at hlt
    obtain ⟨before, id, after, hblobs, hle, hbelow⟩ := exists_blob_at hlt
    have hidx := blobAt_eq hr hne hblobs hle hbelow
    have hstart := getElem?_blobPrefix hr hblobs
    dsimp only at h
    rw [hidx] at h
    obtain ⟨r₁, hload, h⟩ := Option.bind_eq_some_iff.mp h
    obtain ⟨hr₁, hpos₁, id', hid', hcurrent⟩ := load_spec hr hload
    rw [hblobs, List.getElem?_append_right le_rfl, Nat.sub_self, List.getElem?_cons_zero] at hid'
    cases hid'
    rw [getElem?_blobPrefix hr₁ hblobs, Option.bind_some, hcurrent, hpos₁,
      if_neg (by omega)] at h
    cases h
    -- what is left is the rest of the blob and the blobs after it
    have hrest : r.rest store = (store.plain id).drop (r.pos - (before.flatMap store.plain).length) ++
        after.flatMap store.plain := by
      rw [rest, hr.blobIds, hblobs, List.flatMap_append, List.flatMap_cons, List.drop_append,
        List.drop_of_length_le hle, List.nil_append, List.drop_append_of_le_length (by omega)]
    have hlen : ((store.plain id).drop (r.pos - (before.flatMap store.plain).length)).length =
        (store.plain id).length - (r.pos - (before.flatMap store.plain).length) := List.length_drop
    have hcurrent₁ := hr₁.current
    rw [hcurrent] at hcurrent₁
    refine ⟨⟨hr₁.blobIds, hr₁.blobPrefix, hr₁.totalLength, hcurrent₁⟩, ?_, ?_, fun _ hnil => ?_⟩
    · have hdrop : ∀ k blob, (⟨r₁.blobIds, r₁.blobPrefix, r₁.totalLength, r.pos + k, r₁.currentBlobIdx,
          blob⟩ : SerializedNodeDataReader).rest store = (r.rest store).drop k := fun k blob => by
        rw [rest, rest, List.drop_drop, hr₁.blobIds, hr.blobIds]
      have htake : ∀ k, k ≤ (store.plain id).length - (r.pos - (before.flatMap store.plain).length) →
          ((store.plain id).drop (r.pos - (before.flatMap store.plain).length)).take k =
            (r.rest store).take k := fun k hk => by
        rw [hrest, List.take_append_of_le_length (hlen ▸ hk)]
      rw [hdrop, htake _ (Nat.min_le_left _ remaining), List.take_append_drop]
    · rw [List.length_take]
      omega
    · have hzero := congrArg List.length hnil
      rw [List.length_take, List.length_nil] at hzero
      omega

/-- Where every blob can be loaded, no read fails. -/
theorem exists_read (hr : Reading store blobs r) (hne : ∀ id ∈ blobs, store.plain id ≠ [])
    (hloads : ∀ id ∈ blobs, (store.loadBlob id).isSome) (remaining : Nat) :
    ∃ out, r.read store remaining = some out := by
  unfold read
  split
  · exact ⟨_, rfl⟩
  · rename_i hmore
    rw [not_or, Nat.not_le] at hmore
    have hlt := hmore.1
    rw [hr.totalLength] at hlt
    obtain ⟨before, id, after, hblobs, hle, hbelow⟩ := exists_blob_at hlt
    dsimp only
    rw [blobAt_eq hr hne hblobs hle hbelow]
    have hload : ∃ r₁, r.load store before.length = some r₁ := by
      unfold load
      split
      · exact ⟨r, rfl⟩
      · obtain ⟨data, hdata⟩ := Option.isSome_iff_exists.mp
          (hloads id (hblobs ▸ List.mem_append_right _ List.mem_cons_self))
        rw [hr.blobIds, hblobs, List.getElem?_append_right le_rfl, Nat.sub_self,
          List.getElem?_cons_zero, Option.bind_some, hdata]
        exact ⟨_, rfl⟩
    obtain ⟨r₁, hload⟩ := hload
    obtain ⟨hr₁, hpos₁, id', hid', hcurrent⟩ := load_spec hr hload
    rw [hblobs, List.getElem?_append_right le_rfl, Nat.sub_self, List.getElem?_cons_zero] at hid'
    cases hid'
    rw [hload, Option.bind_some, getElem?_blobPrefix hr₁ hblobs, Option.bind_some, hcurrent, hpos₁,
      if_neg (by omega)]
    exact ⟨_, rfl⟩

end SerializedNodeDataReader

end Mapache
