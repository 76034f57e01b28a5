import Mapache.Repository.Backend

/-!
# The blob loader

`BlobLoader::load_with_locators`: the locators are grouped by pack, the blobs of a pack are merged
into segments, each segment is read at once, and the blobs are cut out of what was read. The packs
are visited in the order of a hash map and the segments arrive in any order.

When every locator points to a pack that holds its blob, what is loaded for an ID is its plaintext,
and every ID is loaded (`LoadsWithLocators.loaded`).
-/

set_option autoImplicit false

namespace Mapache

open Lib

/-- A part of a pack that is read at once. -/
structure PackSegment where
  packId : ID
  minOffset : Nat
  maxOffset : Nat
  blobs : List (ID × BlobLocator)

/-- The limits for merging blobs into a segment. -/
structure SegmentLimits where
  mergeThreshold : Nat
  segmentMaxSize : Nat

/-- The segment of one blob. -/
def PackSegment.single (packId : ID) (e : ID × BlobLocator) : PackSegment :=
  ⟨packId, e.2.offset, e.2.offset + e.2.length, [e]⟩

/-- The loop of `segment_blobs`, once there is a current segment. -/
def segmentLoop (limits : SegmentLimits) (packId : ID) :
    List (ID × BlobLocator) → PackSegment → List PackSegment
  | [], current => [current]
  | e :: es, current =>
    let nextSegmentMax := max current.maxOffset (e.2.offset + e.2.length)
    if e.2.offset ≤ current.maxOffset + limits.mergeThreshold ∧
        nextSegmentMax - current.minOffset ≤ limits.segmentMaxSize then
      segmentLoop limits packId es
        { current with maxOffset := nextSegmentMax, blobs := current.blobs ++ [e] }
    else current :: segmentLoop limits packId es (.single packId e)

/-- `segment_blobs`. -/
def segmentBlobs (limits : SegmentLimits) (packId : ID) (blobLocators : List (ID × BlobLocator)) :
    List PackSegment :=
  match sortByKey (fun e => e.2.offset) blobLocators with
  | [] => []
  | e :: es => segmentLoop limits packId es (.single packId e)

/-- The segments of all packs. -/
def allSegments (limits : SegmentLimits) (locators : List (ID × BlobLocator)) : List PackSegment :=
  (locators.map fun e => e.2.packId).dedup.flatMap fun packId =>
    segmentBlobs limits packId (locators.filter fun e => e.2.packId = packId)

/-- Cut a blob out of a segment and decode it. -/
def extractBlob (env : Env) (segment : PackSegment) (data : Bytes) (result : Table ID Bytes)
    (e : ID × BlobLocator) : Option (Table ID Bytes) :=
  if e.2.offset < segment.minOffset then none
  else if data.length < e.2.offset - segment.minOffset + e.2.length then none
  else (env.storage.decode ((data.drop (e.2.offset - segment.minOffset)).take e.2.length)).map
    fun decoded => result.insert e.1 decoded

/-- Read a segment and extract its blobs. -/
def loadSegment (env : Env) (b : Backend) (result : Table ID Bytes) (segment : PackSegment) :
    Option (Table ID Bytes) :=
  (b.packs.lookup segment.packId).bind fun file =>
    segment.blobs.foldlM (extractBlob env segment
      (readRange file segment.minOffset (segment.maxOffset - segment.minOffset))) result

/-- `load_with_locators` returns the blobs, with the segments read in some order. -/
def LoadsWithLocators (env : Env) (limits : SegmentLimits) (b : Backend)
    (locators : List (ID × BlobLocator)) (result : Table ID Bytes) : Prop :=
  ∃ order : List PackSegment, order.Perm (allSegments limits locators) ∧
    order.foldlM (loadSegment env b) ∅ = some result

/-! ## The segments -/

section Segments

variable {limits : SegmentLimits} {packId : ID}

/-- The blobs of the segment lie in its range of its pack. -/
def PackSegment.WF (segment : PackSegment) : Prop :=
  ∀ e ∈ segment.blobs, e.2.packId = segment.packId ∧ segment.minOffset ≤ e.2.offset ∧
    e.2.offset + e.2.length ≤ segment.maxOffset

theorem PackSegment.WF.single {e : ID × BlobLocator} (h : e.2.packId = packId) :
    (PackSegment.single packId e).WF := by
  intro e' he'
  rw [List.mem_singleton.mp he']
  exact ⟨h, le_rfl, le_rfl⟩

/-- The loop puts every blob into a segment. -/
theorem flatMap_segmentLoop (es : List (ID × BlobLocator)) (current : PackSegment) :
    (segmentLoop limits packId es current).flatMap PackSegment.blobs = current.blobs ++ es := by
  induction es generalizing current with
  | nil => simp [segmentLoop]
  | cons e es ih =>
    simp only [segmentLoop]
    split
    · rw [ih]
      simp
    · rw [List.flatMap_cons, ih]
      simp [PackSegment.single]

/-- The blobs come in the order of their offsets, so a segment only grows at its end. -/
theorem wf_segmentLoop (es : List (ID × BlobLocator)) (current : PackSegment)
    (hsorted : es.Pairwise fun a b => a.2.offset ≤ b.2.offset)
    (hmin : ∀ e ∈ es, current.minOffset ≤ e.2.offset) (hpack : ∀ e ∈ es, e.2.packId = packId)
    (hcur : current.WF) (hid : current.packId = packId) :
    ∀ segment ∈ segmentLoop limits packId es current, segment.WF := by
  induction es generalizing current with
  | nil =>
    intro segment hmem
    rw [List.mem_singleton.mp hmem]
    exact hcur
  | cons e es ih =>
    obtain ⟨hhead, htail⟩ := List.pairwise_cons.mp hsorted
    have hpack' : ∀ e' ∈ es, e'.2.packId = packId :=
      fun e' he' => hpack e' (List.mem_cons_of_mem _ he')
    simp only [segmentLoop]
    split
    · refine ih _ htail (fun e' he' => hmin e' (List.mem_cons_of_mem _ he')) hpack' ?_ hid
      intro e' he'
      rcases List.mem_append.mp he' with hold | hnew
      · obtain ⟨hp, hlo, hhi⟩ := hcur e' hold
        exact ⟨hp, hlo, le_max_of_le_left hhi⟩
      · rw [List.mem_singleton.mp hnew]
        exact ⟨(hpack e List.mem_cons_self).trans hid.symm, hmin e List.mem_cons_self,
          le_max_right _ _⟩
    · intro segment hmem
      rcases List.mem_cons.mp hmem with rfl | hrest
      · exact hcur
      · exact ih _ htail hhead hpack' (.single (hpack e List.mem_cons_self)) rfl segment hrest

theorem segmentBlobs_spec (locators : List (ID × BlobLocator))
    (hpack : ∀ e ∈ locators, e.2.packId = packId) :
    (∀ segment ∈ segmentBlobs limits packId locators, segment.WF) ∧
      ∀ e, e ∈ (segmentBlobs limits packId locators).flatMap PackSegment.blobs ↔ e ∈ locators := by
  have hmem : ∀ e, e ∈ sortByKey (fun e => e.2.offset) locators ↔ e ∈ locators :=
    fun e => mem_sortByKey
  have hsorted := pairwise_sortByKey (fun e : ID × BlobLocator => e.2.offset) locators
  unfold segmentBlobs
  split
  · rename_i hnil
    rw [hnil] at hmem
    exact ⟨fun _ h => (by cases h), hmem⟩
  · rename_i e es hcons
    rw [hcons] at hmem hsorted
    obtain ⟨hhead, htail⟩ := List.pairwise_cons.mp hsorted
    have hpack' : ∀ e' ∈ e :: es, e'.2.packId = packId := fun e' he' => hpack e' ((hmem e').mp he')
    refine ⟨wf_segmentLoop es _ htail hhead
      (fun e' he' => hpack' e' (List.mem_cons_of_mem _ he'))
      (.single (hpack' e List.mem_cons_self)) rfl, fun e' => ?_⟩
    rw [flatMap_segmentLoop]
    exact hmem e'

/-- **The segments are well formed and have the blobs of the locators.** -/
theorem allSegments_spec (limits : SegmentLimits) (locators : List (ID × BlobLocator)) :
    (∀ segment ∈ allSegments limits locators, segment.WF) ∧
      ∀ e, (∃ segment ∈ allSegments limits locators, e ∈ segment.blobs) ↔ e ∈ locators := by
  have hgroup : ∀ p, ∀ e ∈ locators.filter (fun e => e.2.packId = p), e.2.packId = p :=
    fun p e he => by simpa using (List.mem_filter.mp he).2
  refine ⟨fun segment hseg => ?_, fun e => ⟨?_, fun he => ?_⟩⟩
  · obtain ⟨p, -, hmem⟩ := List.mem_flatMap.mp hseg
    exact (segmentBlobs_spec _ (hgroup p)).1 segment hmem
  · rintro ⟨segment, hseg, he⟩
    obtain ⟨p, -, hmem⟩ := List.mem_flatMap.mp hseg
    exact List.mem_of_mem_filter
      (((segmentBlobs_spec _ (hgroup p)).2 e).mp (List.mem_flatMap.mpr ⟨segment, hmem, he⟩))
  · have hfilter : e ∈ locators.filter fun e' => e'.2.packId = e.2.packId :=
      List.mem_filter.mpr ⟨he, by simp⟩
    obtain ⟨segment, hseg, hmem⟩ :=
      List.mem_flatMap.mp (((segmentBlobs_spec _ (hgroup e.2.packId)).2 e).mpr hfilter)
    refine ⟨segment, List.mem_flatMap.mpr ⟨e.2.packId, ?_, hseg⟩, hmem⟩
    exact List.mem_dedup.mpr (List.mem_map_of_mem he)

end Segments

/-! ## What is loaded -/

section Load

variable {env : Env} {limits : SegmentLimits} {plain : ID → Bytes} {b : Backend}

/-- What was loaded so far are plaintexts, and the blobs of the list are among it. -/
structure Loaded (plain : ID → Bytes) (es : List (ID × BlobLocator)) (result : Table ID Bytes) :
    Prop where
  sound : ∀ id data, result.lookup id = some data → data = plain id
  complete : ∀ e ∈ es, ∃ data, result.lookup e.1 = some data

theorem Loaded.insert {es : List (ID × BlobLocator)} {result : Table ID Bytes}
    (h : Loaded plain es result) (e : ID × BlobLocator) :
    Loaded plain (es ++ [e]) (result.insert e.1 (plain e.1)) := by
  refine ⟨fun id data hlook => ?_, fun e' he' => ?_⟩
  · rw [Table.lookup_insert_eq_ite] at hlook
    split at hlook
    · rename_i hid
      rw [hid]
      exact (Option.some.inj hlook).symm
    · exact h.sound id data hlook
  · rw [Table.lookup_insert_eq_ite]
    split
    · exact ⟨_, rfl⟩
    · rename_i hne
      rcases List.mem_append.mp he' with hold | hnew
      · exact h.complete e' hold
      · rw [List.mem_singleton.mp hnew] at hne
        exact absurd rfl hne

/-- A blob that is cut out of its segment is its plaintext. -/
theorem extractBlob_eq {segment : PackSegment} {file : Bytes} {result result' : Table ID Bytes}
    {e : ID × BlobLocator} (hfile : b.packs.lookup segment.packId = some file)
    (hpack : e.2.packId = segment.packId) (hmin : segment.minOffset ≤ e.2.offset)
    (hmax : e.2.offset + e.2.length ≤ segment.maxOffset) (hholds : b.Holds env plain e)
    (h : extractBlob env segment
      (readRange file segment.minOffset (segment.maxOffset - segment.minOffset)) result e =
        some result') :
    result' = result.insert e.1 (plain e.1) := by
  obtain ⟨data, hdata, enc, hslice, hne, hdec⟩ := hholds
  rw [hpack, hfile] at hdata
  cases hdata
  have hread : readRange file e.2.offset e.2.length = enc := hslice.readRange hne
  have hlen : e.2.length ≠ 0 := by
    obtain ⟨_, _, _, _, hlen⟩ := hslice
    have hpos : enc.length ≠ 0 := by simpa using hne
    exact fun hzero => hpos (hlen.trans hzero)
  unfold extractBlob at h
  split at h
  · cases h
  · split at h
    · cases h
    · rw [take_drop_readRange hmin hmax hlen, hread, hdec] at h
      exact (Option.some.inj h).symm

theorem Loaded.extractBlobs {segment : PackSegment} {file : Bytes}
    (hfile : b.packs.lookup segment.packId = some file) (blobs : List (ID × BlobLocator))
    {es : List (ID × BlobLocator)} {result result' : Table ID Bytes}
    (hwf : ∀ e ∈ blobs, e.2.packId = segment.packId ∧ segment.minOffset ≤ e.2.offset ∧
      e.2.offset + e.2.length ≤ segment.maxOffset)
    (hholds : ∀ e ∈ blobs, b.Holds env plain e) (h : Loaded plain es result)
    (hload : blobs.foldlM (extractBlob env segment
      (readRange file segment.minOffset (segment.maxOffset - segment.minOffset))) result =
        some result') :
    Loaded plain (es ++ blobs) result' := by
  induction blobs generalizing es result with
  | nil =>
    cases hload
    rw [List.append_nil]
    exact h
  | cons e blobs ih =>
    rw [List.foldlM_cons] at hload
    obtain ⟨result₁, hfirst, hrest⟩ := Option.bind_eq_some_iff.mp hload
    obtain ⟨hpack, hmin, hmax⟩ := hwf e List.mem_cons_self
    have hstep := extractBlob_eq hfile hpack hmin hmax (hholds e List.mem_cons_self) hfirst
    rw [List.append_cons]
    refine ih (fun e' he' => hwf e' (List.mem_cons_of_mem _ he'))
      (fun e' he' => hholds e' (List.mem_cons_of_mem _ he')) ?_ hrest
    rw [hstep]
    exact h.insert e

theorem Loaded.loadSegments (segments : List PackSegment) {es : List (ID × BlobLocator)}
    {result result' : Table ID Bytes} (hwf : ∀ segment ∈ segments, segment.WF)
    (hholds : ∀ segment ∈ segments, ∀ e ∈ segment.blobs, b.Holds env plain e)
    (h : Loaded plain es result) (hload : segments.foldlM (loadSegment env b) result = some result') :
    Loaded plain (es ++ segments.flatMap PackSegment.blobs) result' := by
  induction segments generalizing es result with
  | nil =>
    cases hload
    rw [List.flatMap_nil, List.append_nil]
    exact h
  | cons segment segments ih =>
    rw [List.foldlM_cons] at hload
    obtain ⟨result₁, hfirst, hrest⟩ := Option.bind_eq_some_iff.mp hload
    obtain ⟨file, hfile, hextract⟩ := Option.bind_eq_some_iff.mp hfirst
    rw [List.flatMap_cons, ← List.append_assoc]
    refine ih (fun s hs => hwf s (List.mem_cons_of_mem _ hs))
      (fun s hs => hholds s (List.mem_cons_of_mem _ hs)) ?_ hrest
    exact h.extractBlobs hfile segment.blobs (hwf segment List.mem_cons_self)
      (hholds segment List.mem_cons_self) hextract

/-- **What the loader returns**: the plaintext for every ID of the locators. -/
theorem LoadsWithLocators.loaded {locators : List (ID × BlobLocator)} {result : Table ID Bytes}
    (h : LoadsWithLocators env limits b locators result)
    (hholds : ∀ e ∈ locators, b.Holds env plain e) : Loaded plain locators result := by
  obtain ⟨order, hperm, hload⟩ := h
  obtain ⟨hwf, hblobs⟩ := allSegments_spec limits locators
  have hempty : Loaded plain [] (∅ : Table ID Bytes) :=
    ⟨fun _ _ hlook => (by cases hlook), fun _ he => (by cases he)⟩
  have hloaded := hempty.loadSegments order (fun s hs => hwf s (hperm.mem_iff.mp hs))
    (fun s hs e he => hholds e ((hblobs e).mp ⟨s, hperm.mem_iff.mp hs, he⟩)) hload
  refine ⟨hloaded.sound, fun e he => hloaded.complete e ?_⟩
  obtain ⟨segment, hseg, hmem⟩ := (hblobs e).mpr he
  exact List.mem_append_right _ (List.mem_flatMap.mpr ⟨segment, hperm.mem_iff.mpr hseg, hmem⟩)

/-- What the loader has read is there. -/
theorem LoadsWithLocators.exists_pack {locators : List (ID × BlobLocator)} {result : Table ID Bytes}
    (h : LoadsWithLocators env limits b locators result) {e : ID × BlobLocator} (he : e ∈ locators) :
    ∃ data, b.packs.lookup e.2.packId = some data := by
  obtain ⟨order, hperm, hload⟩ := h
  obtain ⟨hwf, hblobs⟩ := allSegments_spec limits locators
  obtain ⟨segment, hseg, hmem⟩ := (hblobs e).mpr he
  rw [(hwf segment hseg e hmem).1]
  -- every segment of the order was read
  have hread : ∀ (order : List PackSegment) (acc : Table ID Bytes),
      order.foldlM (loadSegment env b) acc = some result → segment ∈ order →
        ∃ data, b.packs.lookup segment.packId = some data := by
    intro order
    induction order with
    | nil => exact fun _ _ hnil => by cases hnil
    | cons s order ih =>
      intro acc hfold hin
      rw [List.foldlM_cons] at hfold
      obtain ⟨acc', hs, hrest⟩ := Option.bind_eq_some_iff.mp hfold
      rcases List.mem_cons.mp hin with rfl | hin
      · obtain ⟨file, hfile, -⟩ := Option.bind_eq_some_iff.mp hs
        exact ⟨file, hfile⟩
      · exact ih acc' hrest hin
  exact hread order ∅ hload (hperm.mem_iff.mpr hseg)

end Load

end Mapache
