import Mapache.Repository.Loader
import Mapache.Repository.SaveBlob

/-!
# A batch of blobs against single loads

`segment_blobs` cuts the requests for a pack into segments (`Partitions`): each one covers its blobs,
and one with several blobs is within the limits. A batch then returns for every pair what
`load_from_pack` returns for its locator, and it fails only where one of those loads does
(`loadsWithLocators_eq_single`).
-/

set_option autoImplicit false

namespace Mapache

open Lib

/-! ## Segments within the limits -/

section Limits

variable {limits : SegmentLimits} {packId : ID}

/-- The blobs of a segment with more than one are read at once because the segment stays short, and
because each of them starts at most the threshold behind the end of one before it. -/
structure PackSegment.WithinLimits (limits : SegmentLimits) (segment : PackSegment) : Prop where
  size : 1 < segment.blobs.length →
    segment.maxOffset - segment.minOffset ≤ limits.segmentMaxSize
  gap : ∀ front e back, segment.blobs = front ++ e :: back → front ≠ [] →
    ∃ e' ∈ front, e.2.offset ≤ e'.2.offset + e'.2.length + limits.mergeThreshold

/-- The segments take the requests for a pack apart. -/
structure Partitions (limits : SegmentLimits) (packId : ID) (requests : List (ID × BlobLocator))
    (segments : List PackSegment) : Prop where
  blobs : (segments.flatMap PackSegment.blobs).Perm requests
  pack : ∀ segment ∈ segments, segment.packId = packId
  nonempty : ∀ segment ∈ segments, segment.blobs ≠ []
  covers : ∀ segment ∈ segments, segment.WF
  limits : ∀ segment ∈ segments, segment.WithinLimits limits

/-- The invariant of the loop for its current segment: the end is that of one of its blobs. -/
structure PackSegment.Fits (limits : SegmentLimits) (packId : ID) (segment : PackSegment) :
    Prop extends segment.WithinLimits limits where
  pack : segment.packId = packId
  reached : ∃ e ∈ segment.blobs, e.2.offset + e.2.length = segment.maxOffset

theorem PackSegment.Fits.single (e : ID × BlobLocator) :
    (PackSegment.single packId e).Fits limits packId where
  size h := absurd h (lt_irrefl 1)
  gap := by
    intro front e' back hsplit hfront
    rcases List.append_eq_singleton_iff.mp hsplit.symm with ⟨rfl, -⟩ | ⟨-, hnil⟩
    · exact absurd rfl hfront
    · cases hnil
  pack := rfl
  reached := ⟨e, List.mem_singleton_self e, rfl⟩

/-- The branch that extends the current segment. -/
theorem PackSegment.Fits.extend {current : PackSegment} (h : current.Fits limits packId)
    {e : ID × BlobLocator} (hgap : e.2.offset ≤ current.maxOffset + limits.mergeThreshold)
    (hsize : max current.maxOffset (e.2.offset + e.2.length) - current.minOffset ≤
      limits.segmentMaxSize) :
    PackSegment.Fits limits packId { current with
      maxOffset := max current.maxOffset (e.2.offset + e.2.length)
      blobs := current.blobs ++ [e] } where
  size _ := hsize
  gap := by
    intro front x back hsplit hfront
    rcases List.eq_nil_or_concat back with rfl | ⟨back, last, rfl⟩
    · -- the new blob: it starts close to the end of the segment, which one of the others reaches
      obtain ⟨rfl, hx⟩ := List.append_inj' hsplit rfl
      cases hx
      obtain ⟨e', he', hend⟩ := h.reached
      exact ⟨e', he', by rw [hend]; exact hgap⟩
    · rw [List.concat_eq_append, ← List.cons_append, ← List.append_assoc] at hsplit
      exact h.gap front x back (List.append_inj_left' hsplit rfl) hfront
  pack := h.pack
  reached := by
    rcases max_choice current.maxOffset (e.2.offset + e.2.length) with hmax | hmax
    · obtain ⟨e', he', hend⟩ := h.reached
      exact ⟨e', List.mem_append_left _ he', hend.trans hmax.symm⟩
    · exact ⟨e, List.mem_append_right _ (List.mem_singleton_self e), hmax.symm⟩

theorem fits_segmentLoop (es : List (ID × BlobLocator)) (current : PackSegment)
    (h : current.Fits limits packId) :
    ∀ segment ∈ segmentLoop limits packId es current, segment.Fits limits packId := by
  induction es generalizing current with
  | nil =>
    intro segment hmem
    rw [List.mem_singleton.mp hmem]
    exact h
  | cons e es ih =>
    rw [segmentLoop]
    split
    · rename_i hmerge
      exact ih _ (h.extend hmerge.1 hmerge.2)
    · intro segment hmem
      rcases List.mem_cons.mp hmem with rfl | hrest
      · exact h
      · exact ih _ (.single e) segment hrest

theorem partitions_segmentBlobs (limits : SegmentLimits) {requests : List (ID × BlobLocator)}
    (hpack : ∀ e ∈ requests, e.2.packId = packId) :
    Partitions limits packId requests (segmentBlobs limits packId requests) := by
  have hperm := perm_sortByKey (fun e : ID × BlobLocator => e.2.offset) requests
  have hfits : ∀ segment ∈ segmentBlobs limits packId requests, segment.Fits limits packId := by
    unfold segmentBlobs
    split
    · intro segment hmem
      cases hmem
    · exact fits_segmentLoop _ _ (.single _)
  refine ⟨?_, fun s hs => (hfits s hs).pack, fun s hs => ?_, (segmentBlobs_spec _ hpack).1,
    fun s hs => (hfits s hs).toWithinLimits⟩
  · unfold segmentBlobs
    split
    · rename_i hnil
      rw [hnil] at hperm
      exact hperm
    · rename_i e es hcons
      rw [flatMap_segmentLoop]
      rw [hcons] at hperm
      exact hperm
  · obtain ⟨e, he, -⟩ := (hfits s hs).reached
    exact List.ne_nil_of_mem he

end Limits

/-! ## The result of a batch -/

section Batch

variable {env : Env} {limits : SegmentLimits} {b : Backend}

/-- The request lies within an existing pack, and asks for something. -/
def Backend.InPack (b : Backend) (l : BlobLocator) : Prop :=
  0 < l.length ∧ ∃ file, b.packs.lookup l.packId = some file ∧ l.offset + l.length ≤ file.length

/-- Load one blob and put it into the result. -/
def loadInto (env : Env) (b : Backend) (result : Table ID Bytes) (e : ID × BlobLocator) :
    Option (Table ID Bytes) :=
  (b.loadFromPack env e.2).map fun decoded => result.insert e.1 decoded

/-- Cutting a blob out of its segment is loading it. -/
theorem extractBlob_eq_loadInto {segment : PackSegment} {file : Bytes} {e : ID × BlobLocator}
    (hfile : b.packs.lookup segment.packId = some file) (hpack : e.2.packId = segment.packId)
    (hmin : segment.minOffset ≤ e.2.offset)
    (hmax : e.2.offset + e.2.length ≤ segment.maxOffset) (hin : b.InPack e.2)
    (result : Table ID Bytes) :
    extractBlob env segment
        (readRange file segment.minOffset (segment.maxOffset - segment.minOffset)) result e =
      loadInto env b result e := by
  obtain ⟨hlen, file', hfile', hend⟩ := hin
  obtain rfl : file' = file := by
    rw [hpack, hfile] at hfile'
    exact (Option.some.inj hfile').symm
  have hread : e.2.offset - segment.minOffset + e.2.length ≤
      (readRange file' segment.minOffset (segment.maxOffset - segment.minOffset)).length := by
    rw [readRange, if_neg (by omega), List.length_take, List.length_drop]
    omega
  rw [extractBlob, if_neg (by omega), if_neg (by omega),
    take_drop_readRange hmin hmax (by omega), loadInto, Backend.loadFromPack, hpack, hfile,
    Option.bind_some, SecureStorage.decodeOwned_eq_decode]

theorem foldlM_congr_mem {σ α : Type} {f g : σ → α → Option σ} (l : List α) (init : σ)
    (h : ∀ a ∈ l, ∀ s, f s a = g s a) : l.foldlM f init = l.foldlM g init := by
  induction l generalizing init with
  | nil => rfl
  | cons a l ih =>
    rw [List.foldlM_cons, List.foldlM_cons, h a List.mem_cons_self]
    exact bind_congr fun s => ih s fun x hx => h x (List.mem_cons_of_mem a hx)

/-- Reading a segment loads its blobs one after the other. -/
theorem loadSegment_eq {segment : PackSegment} (hwf : segment.WF) (hne : segment.blobs ≠ [])
    (hin : ∀ e ∈ segment.blobs, b.InPack e.2) (result : Table ID Bytes) :
    loadSegment env b result segment = segment.blobs.foldlM (loadInto env b) result := by
  obtain ⟨e, he⟩ := List.exists_mem_of_ne_nil _ hne
  obtain ⟨-, file, hfile, -⟩ := hin e he
  rw [(hwf e he).1] at hfile
  rw [loadSegment, hfile, Option.bind_some]
  refine foldlM_congr_mem _ _ fun e' he' s => ?_
  obtain ⟨hpack, hmin, hmax⟩ := hwf e' he'
  exact extractBlob_eq_loadInto hfile hpack hmin hmax (hin e' he') s

theorem loadSegments_eq (segments : List PackSegment)
    (h : ∀ s ∈ segments, s.WF ∧ s.blobs ≠ [] ∧ ∀ e ∈ s.blobs, b.InPack e.2)
    (result : Table ID Bytes) :
    segments.foldlM (loadSegment env b) result =
      (segments.flatMap PackSegment.blobs).foldlM (loadInto env b) result := by
  induction segments generalizing result with
  | nil => rfl
  | cons s segments ih =>
    obtain ⟨hwf, hne, hin⟩ := h s List.mem_cons_self
    rw [List.foldlM_cons, List.flatMap_cons, List.foldlM_append, loadSegment_eq hwf hne hin]
    exact bind_congr fun r => ih (fun s' hs' => h s' (List.mem_cons_of_mem s hs')) r

/-- One load after the other fails where one of them does. -/
theorem foldlM_loadInto_eq_none_iff (es : List (ID × BlobLocator)) (result : Table ID Bytes) :
    es.foldlM (loadInto env b) result = none ↔ ∃ e ∈ es, b.loadFromPack env e.2 = none := by
  induction es generalizing result with
  | nil => simp
  | cons e es ih =>
    rw [List.foldlM_cons]
    cases hload : b.loadFromPack env e.2 with
    | none => simp [loadInto, hload]
    | some bytes => simp [loadInto, hload, ih]

/-- What is in the result is from the last load for its ID. -/
theorem lookup_foldlM_loadInto (es : List (ID × BlobLocator)) {result result' : Table ID Bytes}
    (h : es.foldlM (loadInto env b) result = some result') (id : ID) :
    (∃ e ∈ es, e.1 = id ∧ b.loadFromPack env e.2 = result'.lookup id) ∨
      ((∀ e ∈ es, e.1 ≠ id) ∧ result'.lookup id = result.lookup id) := by
  induction es generalizing result with
  | nil =>
    cases h
    exact .inr ⟨fun e he => (by cases he), rfl⟩
  | cons e es ih =>
    rw [List.foldlM_cons] at h
    obtain ⟨result₁, hfirst, hrest⟩ := Option.bind_eq_some_iff.mp h
    obtain ⟨bytes, hload, rfl⟩ := Option.map_eq_some_iff.mp hfirst
    -- a later load for the ID replaces this one
    rcases ih hrest with ⟨e', he', hid, heq⟩ | ⟨hnone, heq⟩
    · exact .inl ⟨e', List.mem_cons_of_mem e he', hid, heq⟩
    · rw [Table.lookup_insert_eq_ite] at heq
      split at heq
      · rename_i hid
        exact .inl ⟨e, List.mem_cons_self, hid.symm, hload.trans heq.symm⟩
      · rename_i hid
        refine .inr ⟨fun e' he' => ?_, heq⟩
        rcases List.mem_cons.mp he' with rfl | he'
        · exact fun h => hid h.symm
        · exact hnone e' he'

/-- The requests for a pack. -/
def requestsOf (locators : List (ID × BlobLocator)) (packId : ID) : List (ID × BlobLocator) :=
  locators.filter fun e => e.2.packId = packId

theorem partitions_requestsOf (limits : SegmentLimits) (locators : List (ID × BlobLocator))
    (packId : ID) :
    Partitions limits packId (requestsOf locators packId)
      (segmentBlobs limits packId (requestsOf locators packId)) :=
  partitions_segmentBlobs limits fun e he => by simpa using (List.mem_filter.mp he).2

/-- The segments of a batch, in any order, load its blobs in some order. -/
theorem exists_loads {locators : List (ID × BlobLocator)}
    (hin : ∀ e ∈ locators, b.InPack e.2) {order : List PackSegment}
    (horder : order.Perm (allSegments limits locators)) :
    ∃ es : List (ID × BlobLocator), (∀ e, e ∈ es ↔ e ∈ locators) ∧
      order.foldlM (loadSegment env b) ∅ = es.foldlM (loadInto env b) ∅ := by
  obtain ⟨hwf, hblobs⟩ := allSegments_spec limits locators
  have hmem : ∀ e, e ∈ order.flatMap PackSegment.blobs ↔ e ∈ locators := by
    intro e
    rw [← hblobs e, List.mem_flatMap]
    exact exists_congr fun s => and_congr_left' horder.mem_iff
  refine ⟨order.flatMap PackSegment.blobs, hmem, loadSegments_eq order (fun s hs => ?_) ∅⟩
  have hseg := horder.mem_iff.mp hs
  obtain ⟨p, -, hp⟩ := List.mem_flatMap.mp hseg
  refine ⟨hwf s hseg, (partitions_requestsOf limits locators p).nonempty s hp, fun e he => ?_⟩
  exact hin e ((hmem e).mp (List.mem_flatMap.mpr ⟨s, hs, he⟩))

/-- A batch takes the requests for each pack apart into segments within the limits. In whatever order
these are read, the batch fails exactly where one of the single loads does, and otherwise it has the
result of the single load for every pair, and nothing else. -/
theorem loadsWithLocators_eq_single (env : Env) (limits : SegmentLimits) (b : Backend)
    (locators : List (ID × BlobLocator)) (hin : ∀ e ∈ locators, b.InPack e.2)
    (hequal : ∀ e ∈ locators, ∀ e' ∈ locators, e.1 = e'.1 → ∀ x x',
      b.loadFromPack env e.2 = some x → b.loadFromPack env e'.2 = some x' → x = x') :
    (∀ packId, Partitions limits packId (requestsOf locators packId)
      (segmentBlobs limits packId (requestsOf locators packId))) ∧
    (∀ order : List PackSegment, order.Perm (allSegments limits locators) →
      (order.foldlM (loadSegment env b) ∅ = none ↔
        ∃ e ∈ locators, b.loadFromPack env e.2 = none)) ∧
    ∀ result, LoadsWithLocators env limits b locators result →
      (∀ e ∈ locators, ∃ x, b.loadFromPack env e.2 = some x ∧ result.lookup e.1 = some x) ∧
        ∀ id, (∀ e ∈ locators, e.1 ≠ id) → result.lookup id = none := by
  refine ⟨partitions_requestsOf limits locators, fun order horder => ?_, ?_⟩
  · -- a failure does not depend on the order of the loads
    obtain ⟨es, hmem, hes⟩ := exists_loads hin horder
    rw [hes, foldlM_loadInto_eq_none_iff]
    exact exists_congr fun e => and_congr_left' (hmem e)
  · rintro result ⟨order, horder, hload⟩
    obtain ⟨es, hmem, hes⟩ := exists_loads hin horder
    rw [hes] at hload
    have hall : ∀ e ∈ locators, ∃ x, b.loadFromPack env e.2 = some x := by
      intro e he
      by_contra hnone
      have hfail : b.loadFromPack env e.2 = none :=
        Option.eq_none_iff_forall_ne_some.mpr (not_exists.mp hnone)
      rw [(foldlM_loadInto_eq_none_iff es ∅).mpr ⟨e, (hmem e).mpr he, hfail⟩] at hload
      cases hload
    constructor
    · intro e he
      obtain ⟨x, hx⟩ := hall e he
      refine ⟨x, hx, ?_⟩
      -- the value comes from some pair with this ID, and equal IDs have equal plaintexts
      rcases lookup_foldlM_loadInto es hload e.1 with ⟨e', he', hid, heq⟩ | ⟨hnone, -⟩
      · obtain ⟨x', hx'⟩ := hall e' ((hmem e').mp he')
        rw [← heq, hx', hequal e' ((hmem e').mp he') e he hid x' x hx' hx]
      · exact absurd rfl (hnone e ((hmem e).mpr he))
    · intro id hid
      rcases lookup_foldlM_loadInto es hload id with ⟨e, he, heq, -⟩ | ⟨-, hempty⟩
      · exact absurd heq (hid e ((hmem e).mp he))
      · exact hempty

/-- Two blobs of a pack that lie side by side, one of them asked for twice and out of order. -/
theorem loadsWithLocators_eq_single_pair :
    ∃ result, LoadsWithLocators sampleEnv ⟨0, 10⟩
        { emptyBackend with packs := AList.insert 20 [1, 5, 1, 6] ∅ }
        [(6, ⟨20, 2, 2, 1, .data⟩), (5, ⟨20, 0, 2, 1, .data⟩), (6, ⟨20, 2, 2, 1, .data⟩)] result ∧
      result.lookup 5 = some [5] ∧ result.lookup 6 = some [6] := by
  let b : Backend := { emptyBackend with packs := AList.insert 20 [1, 5, 1, 6] ∅ }
  let locators : List (ID × BlobLocator) :=
    [(6, ⟨20, 2, 2, 1, .data⟩), (5, ⟨20, 0, 2, 1, .data⟩), (6, ⟨20, 2, 2, 1, .data⟩)]
  have hfive : b.loadFromPack sampleEnv ⟨20, 0, 2, 1, .data⟩ = some [5] := by rfl
  have hsix : b.loadFromPack sampleEnv ⟨20, 2, 2, 1, .data⟩ = some [6] := by rfl
  have hin : ∀ e ∈ locators, b.InPack e.2 := by
    have hlookup : b.packs.lookup 20 = some [1, 5, 1, 6] := by rfl
    simp only [locators, List.forall_mem_cons]
    exact ⟨⟨by decide, _, hlookup, by decide⟩, ⟨by decide, _, hlookup, by decide⟩,
      ⟨by decide, _, hlookup, by decide⟩, List.forall_mem_nil _⟩
  -- the two pairs with the ID 6 are equal
  have hkey : ∀ e ∈ locators,
      e.2 = if e.1 = 6 then ⟨20, 2, 2, 1, .data⟩ else ⟨20, 0, 2, 1, .data⟩ := by
    decide
  have h := loadsWithLocators_eq_single sampleEnv ⟨0, 10⟩ b locators hin
    (by
      intro e he e' he' hid x x' hx hx'
      rw [hkey e he, hid, ← hkey e' he'] at hx
      exact Option.some.inj (hx.symm.trans hx'))
  -- none of the single loads fails, so the batch does not
  have hloads : ¬ ∃ e ∈ locators, b.loadFromPack sampleEnv e.2 = none := by
    rintro ⟨e, he, hnone⟩
    rw [hkey e he] at hnone
    split at hnone
    · rw [hsix] at hnone
      cases hnone
    · rw [hfive] at hnone
      cases hnone
  obtain ⟨result, hresult⟩ :=
    Option.ne_none_iff_exists'.mp (mt (h.2.1 _ (List.Perm.refl _)).mp hloads)
  have hbatch : LoadsWithLocators sampleEnv ⟨0, 10⟩ b locators result := ⟨_, .refl _, hresult⟩
  obtain ⟨hall, -⟩ := h.2.2 result hbatch
  obtain ⟨x, hx, hlook⟩ := hall (5, ⟨20, 0, 2, 1, .data⟩) (by decide)
  obtain ⟨y, hy, hlook'⟩ := hall (6, ⟨20, 2, 2, 1, .data⟩) (by decide)
  exact ⟨result, hbatch, hlook.trans (hx.symm.trans hfive), hlook'.trans (hy.symm.trans hsix)⟩

end Batch

end Mapache
