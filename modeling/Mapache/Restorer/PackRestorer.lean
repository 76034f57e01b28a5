import Mapache.Lib.Run
import Mapache.Repository.Loader
import Mapache.Restorer.HandleCache

/-!
# Restoring files from packs

`restore_packs`: the requests of a batch of files are grouped by pack and blob, the blobs of a pack
are merged into segments, and each segment is read at once. Its blobs are decoded in batches, and
the writes of a batch are grouped by file. Segments and the files of a batch proceed concurrently,
so the writes of one file happen in any order; those of one group happen under the lock of the shard
that has the handle.

Whatever the order, a file is never truncated after data has been written to it (`Safe`), and when
nothing fails, all its pieces are in place at the end (`Progress.content_eq`). Each file of a batch
has a path of its own. A failure is recorded and the rest goes on, as without `quit_on_error`.
-/

set_option autoImplicit false

namespace Mapache

open Lib

/-! ## Requests and segments -/

/-- `BlobRestoreRequest`. -/
structure BlobRestoreRequest where
  fileIdx : Nat
  offsetInFile : Nat
  blobOffset : Nat
  blobLength : Nat
  rawLength : Nat
  deriving DecidableEq

/-- A request of the pack map: the pack, the blob, and where it goes. -/
structure PackRequest where
  packId : ID
  blobId : ID
  request : BlobRestoreRequest
  deriving DecidableEq

/-- The locator of the blob of a request. -/
def PackRequest.locator (q : PackRequest) : BlobLocator :=
  ⟨q.packId, q.request.blobOffset, q.request.blobLength, q.request.rawLength, .data⟩

/-- `blob_to_targets` of a pack. -/
def packTargets (packs : List PackRequest) (packId id : ID) : List PackRequest :=
  packs.filter fun q => q.packId = packId ∧ q.blobId = id

/-- The blobs of all packs, each with the locator of its first request. -/
def packBlobs (packs : List PackRequest) : List (ID × BlobLocator) :=
  (packs.map fun q => (q.packId, q.blobId)).dedup.filterMap fun key =>
    (packTargets packs key.1 key.2).head?.map fun t₀ => (key.2, t₀.locator)

/-- The settings of a restore. -/
structure RestoreConfig where
  segments : SegmentLimits
  decodedBudget : Nat
  preallocate : Bool
  numShards : Nat
  handlesPerShard : Nat

/-- A batch of blobs from the top of the stack: the loop stops when the budget is reached. -/
def popBatch (budget : Nat) : Nat → List (ID × BlobLocator) →
    List (ID × BlobLocator) × List (ID × BlobLocator)
  | _, [] => ([], [])
  | acc, e :: es =>
    if budget ≤ acc + e.2.rawLength then ([e], es)
    else
      let next := popBatch budget (acc + e.2.rawLength) es
      (e :: next.1, next.2)

/-- Cut a blob out of what was read and decode it. -/
def decodeBlob (env : Env) (segment : PackSegment) (data : Bytes) (e : ID × BlobLocator) :
    Option Bytes :=
  if e.2.offset < segment.minOffset then none
  else if data.length < e.2.offset - segment.minOffset + e.2.length then none
  else env.storage.decode ((data.drop (e.2.offset - segment.minOffset)).take e.2.length)

/-- A decoded blob with its targets. -/
def decodeTargets (env : Env) (packs : List PackRequest) (segment : PackSegment) (data : Bytes)
    (e : ID × BlobLocator) : Option (Bytes × List PackRequest) :=
  (decodeBlob env segment data e).map fun decoded => (decoded, packTargets packs segment.packId e.1)

/-- The writes of decoded blobs, by file. -/
def allWrites (decoded : List (Bytes × List PackRequest)) : List (Nat × Bytes × Nat) :=
  decoded.flatMap fun d => d.2.map fun q => (q.request.fileIdx, d.1, q.request.offsetInFile)

/-- `file_batches`. -/
def fileBatches (decoded : List (Bytes × List PackRequest)) : List (Nat × List (Bytes × Nat)) :=
  ((allWrites decoded).map fun w => w.1).dedup.map fun idx =>
    (idx, ((allWrites decoded).filter fun w => w.1 = idx).map fun w => w.2)

section Requests

variable {packs : List PackRequest} {getData : ID → Option BlobLocator} {q : PackRequest}
  {e : ID × BlobLocator}

theorem mem_packTargets {packId id : ID} :
    q ∈ packTargets packs packId id ↔ q ∈ packs ∧ q.packId = packId ∧ q.blobId = id := by
  rw [packTargets, List.mem_filter, decide_eq_true_eq]

/-- The locator of a blob is that of one of its requests. -/
theorem exists_of_mem_packBlobs (he : e ∈ packBlobs packs) :
    ∃ q ∈ packs, q.blobId = e.1 ∧ q.locator = e.2 := by
  obtain ⟨key, -, hkey⟩ := List.mem_filterMap.mp he
  obtain ⟨t₀, hhead, rfl⟩ := Option.map_eq_some_iff.mp hkey
  obtain ⟨hmem, -, hid⟩ := mem_packTargets.mp (List.mem_of_head? hhead)
  exact ⟨t₀, hmem, hid, rfl⟩

/-- When the requests of a blob have one locator, it is that of the blob. -/
theorem mem_packBlobs (hlocated : ∀ q ∈ packs, getData q.blobId = some q.locator) (hq : q ∈ packs) :
    (q.blobId, q.locator) ∈ packBlobs packs := by
  have hself : q ∈ packTargets packs q.packId q.blobId := mem_packTargets.mpr ⟨hq, rfl, rfl⟩
  obtain ⟨t₀, hhead⟩ : ∃ t₀, (packTargets packs q.packId q.blobId).head? = some t₀ := by
    cases htargets : packTargets packs q.packId q.blobId with
    | nil =>
      rw [htargets] at hself
      cases hself
    | cons t₀ ts => exact ⟨t₀, rfl⟩
  obtain ⟨hmem, -, hid⟩ := mem_packTargets.mp (List.mem_of_head? hhead)
  have hsame : t₀.locator = q.locator := by
    have h₀ := hlocated t₀ hmem
    rw [hid, hlocated q hq] at h₀
    exact (Option.some.inj h₀).symm
  refine List.mem_filterMap.mpr ⟨(q.packId, q.blobId), ?_, ?_⟩
  · exact List.mem_dedup.mpr (List.mem_map_of_mem (f := fun q => (q.packId, q.blobId)) hq)
  · rw [hhead, Option.map_some, hsame]

/-- A batch and the rest are the stack. -/
theorem popBatch_append (budget acc : Nat) (stack : List (ID × BlobLocator)) :
    (popBatch budget acc stack).1 ++ (popBatch budget acc stack).2 = stack := by
  induction stack generalizing acc with
  | nil => rfl
  | cons e es ih =>
    unfold popBatch
    split
    · rfl
    · rw [List.cons_append, ih]

/-- The writes of a file are those of the requests for it. -/
theorem mem_fileBatches {decoded : List (Bytes × List PackRequest)} {i : Nat} {w : Bytes × Nat} :
    (∃ g ∈ fileBatches decoded, g.1 = i ∧ w ∈ g.2) ↔
      ∃ d ∈ decoded, ∃ q ∈ d.2, q.request.fileIdx = i ∧ w = (d.1, q.request.offsetInFile) := by
  have hall : ∀ x, x ∈ allWrites decoded ↔ ∃ d ∈ decoded, ∃ q ∈ d.2,
      x = (q.request.fileIdx, d.1, q.request.offsetInFile) := by
    intro x
    simp only [allWrites, List.mem_flatMap, List.mem_map, eq_comm]
  constructor
  · rintro ⟨g, hg, rfl, hw⟩
    obtain ⟨idx, -, rfl⟩ := List.mem_map.mp hg
    obtain ⟨x, hx, rfl⟩ := List.mem_map.mp hw
    obtain ⟨hmem, hidx⟩ := List.mem_filter.mp hx
    obtain ⟨d, hd, q, hq, rfl⟩ := (hall x).mp hmem
    exact ⟨d, hd, q, hq, of_decide_eq_true hidx, rfl⟩
  · rintro ⟨d, hd, q, hq, rfl, rfl⟩
    have hmem := (hall (q.request.fileIdx, d.1, q.request.offsetInFile)).mpr ⟨d, hd, q, hq, rfl⟩
    refine ⟨_, List.mem_map.mpr ⟨q.request.fileIdx, ?_, rfl⟩, rfl, ?_⟩
    · exact List.mem_dedup.mpr (List.mem_map_of_mem (f := fun w => w.1) hmem)
    · exact List.mem_map.mpr ⟨_, List.mem_filter.mpr ⟨hmem, decide_eq_true rfl⟩, rfl⟩

/-- The elements of what `mapM` returns. -/
theorem mem_of_mapM {α β : Type} {f : α → Option β} {l : List α} {out : List β}
    (h : l.mapM f = some out) :
    (∀ a ∈ l, ∃ b ∈ out, f a = some b) ∧ ∀ b ∈ out, ∃ a ∈ l, f a = some b := by
  induction l generalizing out with
  | nil =>
    cases h
    exact ⟨fun a ha => (by cases ha), fun b hb => by cases hb⟩
  | cons a l ih =>
    rw [List.mapM_cons] at h
    obtain ⟨first, hfirst, htail⟩ := Option.bind_eq_some_iff.mp h
    obtain ⟨rest, hrest, heq⟩ := Option.bind_eq_some_iff.mp htail
    cases heq
    obtain ⟨hleft, hright⟩ := ih hrest
    refine ⟨fun a' ha' => ?_, fun b hb => ?_⟩
    · rcases List.mem_cons.mp ha' with rfl | ha'
      · exact ⟨first, List.mem_cons_self, hfirst⟩
      · obtain ⟨b, hb, hfb⟩ := hleft a' ha'
        exact ⟨b, List.mem_cons_of_mem _ hb, hfb⟩
    · rcases List.mem_cons.mp hb with rfl | hb
      · exact ⟨a, List.mem_cons_self, hfirst⟩
      · obtain ⟨a', ha', hfa⟩ := hright b hb
        exact ⟨a', List.mem_cons_of_mem _ ha', hfa⟩

/-- **A decoded blob is its plaintext.** -/
theorem decodeBlob_eq {env : Env} {plain : ID → Bytes} {b : Backend} {segment : PackSegment}
    {file : Bytes}
    {decoded : Bytes} (hfile : b.packs.lookup segment.packId = some file) (hwf : segment.WF)
    (he : e ∈ segment.blobs) (hholds : b.Holds env plain e)
    (h : decodeBlob env segment
      (readRange file segment.minOffset (segment.maxOffset - segment.minOffset)) e = some decoded) :
    decoded = plain e.1 := by
  obtain ⟨hpack, hmin, hmax⟩ := hwf e he
  -- the loader cuts its blobs in the same way
  have hextract : extractBlob env segment
      (readRange file segment.minOffset (segment.maxOffset - segment.minOffset)) ∅ e =
        some ((∅ : Table ID Bytes).insert e.1 decoded) := by
    unfold decodeBlob at h
    unfold extractBlob
    split at h
    · cases h
    · rename_i hlo
      split at h
      · cases h
      · rename_i hhi
        rw [if_neg hlo, if_neg hhi, h, Option.map_some]
  have heq := extractBlob_eq hfile hpack hmin hmax hholds hextract
  have hlookup := congrArg (AList.lookup e.1) heq
  rw [AList.lookup_insert, AList.lookup_insert] at hlookup
  exact Option.some.inj hlookup

end Requests

/-! ## The run -/

/-- A segment on its way. -/
inductive RestoreTask where
  | waiting (segment : PackSegment)
  /-- The blobs that are not decoded yet, with the last one first, and the writes of the batch at
  hand. -/
  | running (segment : PackSegment) (data : Bytes) (stack : List (ID × BlobLocator))
      (groups : List (Nat × List (Bytes × Nat)))

/-- The state of `restore_packs`. The files that the first loop has still to visit are `opening`. -/
structure RestoreState where
  ops : Nat → List FileOp
  caches : Nat → FileHandleCache
  initialized : Nat → Bool
  opening : List Nat
  tasks : List RestoreTask
  failed : Bool

/-- The first loop opens an empty file, and a file without blobs that is not there. -/
def needsOpening (plan : FileRestorePlan) (entry : LocalEntry) : Bool :=
  !plan.isSelective && ((plan.numBlobs = 0 && !plan.isHardlink && !entry.exists) || plan.size = 0)

namespace RestoreState

/-- The start of `restore_packs`. -/
def start (config : RestoreConfig) (files : List FileRestorePlan) (segments : List PackSegment) :
    RestoreState where
  ops := fun _ => []
  caches := fun _ => .new config.handlesPerShard
  initialized := fun _ => false
  opening := List.range files.length
  tasks := segments.map .waiting
  failed := false

/-- A handle was asked for and operations were done on the file. -/
def handled (s : RestoreState) (shard idx : Nat) (cache : FileHandleCache) (initialized : Bool)
    (ops : List FileOp) : RestoreState :=
  { s with
    ops := Function.update s.ops idx (s.ops idx ++ ops)
    caches := Function.update s.caches shard cache
    initialized := Function.update s.initialized idx initialized }

/-- A step of `restore_packs`. -/
inductive Step (env : Env) (config : RestoreConfig) (b : Backend) (files : List FileRestorePlan)
    (packs : List PackRequest) (entries : Nat → LocalEntry) : RestoreState → Unit → RestoreState →
    Prop where
  | skip {s : RestoreState} {idx : Nat} {rest : List Nat} {plan : FileRestorePlan} :
      s.opening = idx :: rest → files[idx]? = some plan →
      needsOpening plan (contentOf (entries idx) (s.ops idx)) = false →
      Step env config b files packs entries s () { s with opening := rest }
  | openFile {s : RestoreState} {idx : Nat} {rest : List Nat} {plan : FileRestorePlan}
      {cache : FileHandleCache} {init ok : Bool} {ops : List FileOp} :
      s.opening = idx :: rest → files[idx]? = some plan →
      needsOpening plan (contentOf (entries idx) (s.ops idx)) = true →
      GetHandle config.preallocate plan idx (contentOf (entries idx) (s.ops idx))
        (s.caches (idx % config.numShards)) (s.initialized idx) cache init ops ok →
      Step env config b files packs entries s ()
        { s.handled (idx % config.numShards) idx cache init ops with
          opening := rest
          failed := s.failed || !ok }
  | read {s : RestoreState} {before after : List RestoreTask} {segment : PackSegment} {file : Bytes} :
      s.opening = [] → s.tasks = before ++ .waiting segment :: after →
      b.packs.lookup segment.packId = some file →
      Step env config b files packs entries s ()
        { s with
          tasks := before ++ .running segment
            (readRange file segment.minOffset (segment.maxOffset - segment.minOffset))
            segment.blobs.reverse [] :: after }
  | decode {s : RestoreState} {before after : List RestoreTask} {segment : PackSegment} {data : Bytes}
      {stack : List (ID × BlobLocator)} {decoded : List (Bytes × List PackRequest)} :
      s.tasks = before ++ .running segment data stack [] :: after → stack ≠ [] →
      (popBatch config.decodedBudget 0 stack).1.mapM (decodeTargets env packs segment data) =
        some decoded →
      Step env config b files packs entries s ()
        { s with
          tasks := before ++ .running segment data (popBatch config.decodedBudget 0 stack).2
            (fileBatches decoded) :: after }
  | write {s : RestoreState} {before after : List RestoreTask} {segment : PackSegment} {data : Bytes}
      {stack : List (ID × BlobLocator)} {groups groups' : List (Nat × List (Bytes × Nat))} {idx : Nat}
      {writes : List (Bytes × Nat)} {plan : FileRestorePlan} {cache : FileHandleCache} {init : Bool}
      {ops : List FileOp} :
      s.tasks = before ++ .running segment data stack (groups ++ (idx, writes) :: groups') :: after →
      files[idx]? = some plan →
      GetHandle config.preallocate plan idx (contentOf (entries idx) (s.ops idx))
        (s.caches (idx % config.numShards)) (s.initialized idx) cache init ops true →
      Step env config b files packs entries s ()
        { s.handled (idx % config.numShards) idx cache init (ops ++ writeOps writes) with
          tasks := before ++ .running segment data stack (groups ++ groups') :: after }
  /-- There is no handle, or a write fails after some of the data. -/
  | writeFail {s : RestoreState} {before after : List RestoreTask} {segment : PackSegment}
      {data : Bytes} {stack : List (ID × BlobLocator)}
        {groups groups' : List (Nat × List (Bytes × Nat))}
      {idx : Nat} {writes : List (Bytes × Nat)} {plan : FileRestorePlan} {cache : FileHandleCache}
      {init ok : Bool} {ops written : List FileOp} :
      s.tasks = before ++ .running segment data stack (groups ++ (idx, writes) :: groups') :: after →
      files[idx]? = some plan →
      GetHandle config.preallocate plan idx (contentOf (entries idx) (s.ops idx))
        (s.caches (idx % config.numShards)) (s.initialized idx) cache init ops ok →
      (∀ op ∈ written, op.isWrite = true) → (ok = false → written = []) →
      Step env config b files packs entries s ()
        { s.handled (idx % config.numShards) idx cache init (ops ++ written) with
          tasks := before ++ .running segment data stack (groups ++ groups') :: after
          failed := true }
  | finish {s : RestoreState} {before after : List RestoreTask} {segment : PackSegment}
    {data : Bytes} :
      s.tasks = before ++ .running segment data [] [] :: after →
      Step env config b files packs entries s () { s with tasks := before ++ after }
  /-- A segment cannot be read or decoded, or the shutdown signal is seen. -/
  | fail {s : RestoreState} : Step env config b files packs entries s () { s with failed := true }

/-- All is done. -/
def Done (s : RestoreState) : Prop := s.opening = [] ∧ s.tasks = []

/-! ## Truncations -/

/-- What holds of a file in every run, also after failures. -/
structure Safe (i : Nat) (s : RestoreState) : Prop where
  cached : ∀ shard j, j ∈ (s.caches shard).handles → s.initialized j = true
  unwritten : s.initialized i = false → ∀ op ∈ s.ops i, op.isWrite = false
  ordered : NeverTruncatesData (s.ops i)

section Safety

variable {env : Env} {config : RestoreConfig} {b : Backend} {files : List FileRestorePlan}
  {packs : List PackRequest} {entries : Nat → LocalEntry} {i idx shard : Nat} {s s' : RestoreState}
  {plan : FileRestorePlan} {entry : LocalEntry} {cache : FileHandleCache} {init ok : Bool}
  {ops written : List FileOp}

theorem Safe.start {segments : List PackSegment} : Safe i (start config files segments) where
  cached := fun shard j hj => by cases hj
  unwritten := fun _ op hop => by cases hop
  ordered := neverTruncatesData_of_not_write fun op hop => by cases hop

/-- A handle and data for a file. Data is written to a file that is initialized, and a file that is
initialized is not truncated. -/
theorem Safe.handled (h : Safe i s)
    (hget : GetHandle config.preallocate plan idx entry (s.caches shard) (s.initialized idx) cache
    init ops
      ok)
    (hwritten : ∀ op ∈ written, op.isWrite = true) (hok : ok = false → written = []) :
    Safe i (s.handled shard idx cache init (ops ++ written)) := by
  obtain ⟨hhandles, hops, hkeep, hinit⟩ := hget.frame
  -- a file that was initialized stays so
  have hmono : ∀ j, s.initialized j = true → Function.update s.initialized idx init j = true := by
    intro j hj
    by_cases heq : j = idx
    · subst heq
      rw [Function.update_self]
      exact (hkeep hj).1
    · rw [Function.update_of_ne heq]
      exact hj
  refine ⟨fun shard' j hj => ?_, fun hfresh => ?_, ?_⟩
  · dsimp only [RestoreState.handled] at hj ⊢
    by_cases heq : shard' = shard
    · rw [heq, Function.update_self] at hj
      rcases hhandles j hj with hold | ⟨rfl, hnew⟩
      · exact hmono j (h.cached shard j hold)
      · rw [Function.update_self]
        exact hnew
    · rw [Function.update_of_ne heq] at hj
      exact hmono j (h.cached shard' j hj)
  · dsimp only [RestoreState.handled] at hfresh ⊢
    by_cases heq : i = idx
    · subst heq
      rw [Function.update_self] at hfresh ⊢
      have hold : s.initialized i = false := by
        by_contra hne
        have htrue := (hkeep (by simpa using hne)).1
        rw [hfresh] at htrue
        cases htrue
      -- no handle was returned
      have hnone : written = [] := by
        refine hok ?_
        by_contra hne
        rcases hinit (by simpa using hne) with hmem | htrue
        · have htrue := h.cached shard i hmem
          rw [hold] at htrue
          cases htrue
        · rw [hfresh] at htrue
          cases htrue
      rw [hnone, List.append_nil]
      intro op hop
      rcases List.mem_append.mp hop with hop | hop
      · exact h.unwritten hold op hop
      · exact hops op hop
    · rw [Function.update_of_ne heq] at hfresh ⊢
      exact h.unwritten hfresh
  · dsimp only [RestoreState.handled]
    by_cases heq : i = idx
    · subst heq
      rw [Function.update_self, ← List.append_assoc]
      refine NeverTruncatesData.append ?_ (truncate_notMem_of_write hwritten)
      cases hold : s.initialized i with
      | true =>
        rw [(hkeep hold).2, List.append_nil]
        exact h.ordered
      | false =>
        refine neverTruncatesData_of_not_write fun op hop => ?_
        rcases List.mem_append.mp hop with hop | hop
        · exact h.unwritten hold op hop
        · exact hops op hop
    · rw [Function.update_of_ne heq]
      exact h.ordered

/-- Only handles and writes matter. -/
theorem Safe.congr (h : Safe i s) (hops : s'.ops = s.ops) (hcaches : s'.caches = s.caches)
    (hinit : s'.initialized = s.initialized) : Safe i s' := by
  refine ⟨?_, ?_, ?_⟩
  · rw [hcaches, hinit]
    exact h.cached
  · rw [hops, hinit]
    exact h.unwritten
  · rw [hops]
    exact h.ordered

theorem Safe.step {l : Unit} (h : Safe i s) (hstep : Step env config b files packs entries s l s') :
    Safe i s' := by
  cases hstep with
  | skip | read | decode | finish | fail => exact h.congr rfl rfl rfl
  | openFile hopening hplan hneeds hget =>
    have hnone : ∀ op ∈ ([] : List FileOp), op.isWrite = true := fun op hop => by cases hop
    have hnew := h.handled hget hnone fun _ => rfl
    rw [List.append_nil] at hnew
    exact hnew.congr rfl rfl rfl
  | @write _ _ _ _ _ _ _ _ writes _ _ _ _ htasks hplan hget =>
    have hnew := h.handled hget (isWrite_writeOps writes) fun hok => by cases hok
    exact hnew.congr rfl rfl rfl
  | writeFail htasks hplan hget hwritten hok =>
    have hnew := h.handled hget hwritten hok
    exact hnew.congr rfl rfl rfl

end Safety

/-! ## Files that nothing is done to -/

/-- Nothing was done to the file, and no task has a write to it. -/
structure Idle (i : Nat) (s : RestoreState) : Prop where
  ops_nil : s.ops i = []
  groups_ne : ∀ segment data stack groups, .running segment data stack groups ∈ s.tasks →
    ∀ g ∈ groups, g.1 ≠ i

section Idling

variable {env : Env} {config : RestoreConfig} {b : Backend} {files : List FileRestorePlan}
  {packs : List PackRequest} {entries : Nat → LocalEntry} {i : Nat} {s s' : RestoreState}

theorem Idle.start {segments : List PackSegment} : Idle i (start config files segments) where
  ops_nil := rfl
  groups_ne segment data stack groups htask := by
    obtain ⟨x, -, hx⟩ := List.mem_map.mp htask
    cases hx

/-- A handle for another file. -/
theorem Idle.handled {shard idx : Nat} {cache : FileHandleCache} {init : Bool} {ops : List FileOp}
    (h : Idle i s) (hne : idx ≠ i) : Idle i (s.handled shard idx cache init ops) := by
  refine ⟨?_, h.groups_ne⟩
  dsimp only [RestoreState.handled]
  rw [Function.update_of_ne (Ne.symm hne)]
  exact h.ops_nil

/-- Other tasks, with writes to other files. -/
theorem Idle.retask (h : Idle i s) (hops : s'.ops i = s.ops i)
    (htasks : ∀ segment data stack groups, .running segment data stack groups ∈ s'.tasks →
      .running segment data stack groups ∈ s.tasks ∨ ∀ g ∈ groups, g.1 ≠ i) : Idle i s' := by
  refine ⟨hops.trans h.ops_nil, fun segment data stack groups htask => ?_⟩
  rcases htasks segment data stack groups htask with hold | hnew
  · exact h.groups_ne segment data stack groups hold
  · exact hnew

/-- The decoded blobs are written to the files of their requests. -/
theorem ne_of_mem_fileBatches (hnone : ∀ q ∈ packs, q.request.fileIdx ≠ i) {segment : PackSegment}
    {data : Bytes} {batch : List (ID × BlobLocator)} {decoded : List (Bytes × List PackRequest)}
    (hdecode : batch.mapM (decodeTargets env packs segment data) = some decoded) :
    ∀ g ∈ fileBatches decoded, g.1 ≠ i := by
  intro g hg
  obtain ⟨idx, hidx, rfl⟩ := List.mem_map.mp hg
  obtain ⟨w, hw, rfl⟩ := List.mem_map.mp (List.mem_dedup.mp hidx)
  obtain ⟨d, hd, hw⟩ := List.mem_flatMap.mp hw
  obtain ⟨q, hq, rfl⟩ := List.mem_map.mp hw
  obtain ⟨e, -, he⟩ := (mem_of_mapM hdecode).2 d hd
  obtain ⟨bytes, -, rfl⟩ := Option.map_eq_some_iff.mp he
  exact hnone q (mem_packTargets.mp hq).1

/-- A group of writes to another file leaves its task. -/
theorem Idle.write (h : Idle i s) {before after : List RestoreTask} {segment : PackSegment}
    {data : Bytes} {stack : List (ID × BlobLocator)} {groups groups' : List (Nat × List (Bytes × Nat))}
    {shard idx : Nat} {writes : List (Bytes × Nat)} {cache : FileHandleCache} {init failed : Bool}
    {ops : List FileOp}
    (htasks : s.tasks =
      before ++ .running segment data stack (groups ++ (idx, writes) :: groups') :: after) :
    Idle i { s.handled shard idx cache init ops with
      tasks := before ++ .running segment data stack (groups ++ groups') :: after
      failed := failed } := by
  have hgroups : ∀ g ∈ groups ++ (idx, writes) :: groups', g.1 ≠ i := by
    refine h.groups_ne segment data stack _ ?_
    rw [htasks]
    exact List.mem_append_right _ List.mem_cons_self
  have hne : idx ≠ i := hgroups _ (List.mem_append_right _ List.mem_cons_self)
  have hhandled : Idle i (s.handled shard idx cache init ops) := h.handled hne
  refine hhandled.retask rfl fun segment' data' stack' groups'' htask => ?_
  change _ ∈ s.tasks ∨ _
  rw [htasks]
  rcases List.mem_append.mp htask with htask | htask
  · exact Or.inl (List.mem_append_left _ htask)
  · rcases List.mem_cons.mp htask with heq | htask
    · cases heq
      refine Or.inr fun g hg => hgroups g ?_
      rcases List.mem_append.mp hg with hg | hg
      · exact List.mem_append_left _ hg
      · exact List.mem_append_right _ (List.mem_cons_of_mem _ hg)
    · exact Or.inl (List.mem_append_right _ (List.mem_cons_of_mem _ htask))

/-- A file without requests that the first loop does not open stays as it is. -/
theorem Idle.step {l : Unit} (h : Idle i s) (hnone : ∀ q ∈ packs, q.request.fileIdx ≠ i)
    (hopen : ∀ plan, files[i]? = some plan → needsOpening plan (entries i) = false)
    (hstep : Step env config b files packs entries s l s') : Idle i s' := by
  cases hstep with
  | skip | fail => exact h.retask rfl fun _ _ _ _ htask => Or.inl htask
  | @openFile idx rest plan cache init ok ops hopening hplan hneeds hget =>
    have hne : idx ≠ i := by
      rintro rfl
      rw [h.ops_nil] at hneeds
      change needsOpening plan (entries idx) = true at hneeds
      rw [hopen plan hplan] at hneeds
      cases hneeds
    have hhandled : Idle i (s.handled (idx % config.numShards) idx cache init ops) := h.handled hne
    exact hhandled.retask rfl fun _ _ _ _ htask => Or.inl htask
  | @read before after segment file hopening htasks hfile =>
    refine h.retask rfl fun segment' data stack groups htask => ?_
    rw [htasks]
    rcases List.mem_append.mp htask with htask | htask
    · exact Or.inl (List.mem_append_left _ htask)
    · rcases List.mem_cons.mp htask with heq | htask
      · cases heq
        exact Or.inr fun g hg => by cases hg
      · exact Or.inl (List.mem_append_right _ (List.mem_cons_of_mem _ htask))
  | @decode before after segment data stack decoded htasks hstack hdecode =>
    refine h.retask rfl fun segment' data' stack' groups htask => ?_
    rw [htasks]
    rcases List.mem_append.mp htask with htask | htask
    · exact Or.inl (List.mem_append_left _ htask)
    · rcases List.mem_cons.mp htask with heq | htask
      · cases heq
        exact Or.inr (ne_of_mem_fileBatches hnone hdecode)
      · exact Or.inl (List.mem_append_right _ (List.mem_cons_of_mem _ htask))
  | @write before after segment data stack groups groups' idx writes plan cache init ops htasks =>
    exact h.write htasks
  | @writeFail before after segment data stack groups groups' idx writes plan cache init ok ops
      written htasks =>
    exact h.write htasks
  | @finish before after segment data htasks =>
    refine h.retask rfl fun segment' data' stack' groups htask => ?_
    rw [htasks]
    rcases List.mem_append.mp htask with htask | htask
    · exact Or.inl (List.mem_append_left _ htask)
    · exact Or.inl (List.mem_append_right _ (List.mem_cons_of_mem _ htask))

theorem Idle.run (hnone : ∀ q ∈ packs, q.request.fileIdx ≠ i)
    (hopen : ∀ plan, files[i]? = some plan → needsOpening plan (entries i) = false)
    {segments : List PackSegment} {ls : List Unit}
    (hrun : Run (Step env config b files packs entries) (RestoreState.start config files segments)
      ls s) :
    s.ops i = [] :=
  (hrun.invariant (P := Idle i) (fun _ _ _ h hstep => h.step hnone hopen hstep) .start).ops_nil

end Idling

/-! ## The pieces of a file -/

/-- What a restore is to make of the file `i`: its requests are pieces of the target, and the rest
of it is there from the start, at the positions in `keep`. -/
structure FileGoal (env : Env) (b : Backend) (plain : ID → Bytes) (files : List FileRestorePlan)
    (packs : List PackRequest) (entries : Nat → LocalEntry) (i : Nat) (plan : FileRestorePlan)
    (target : Bytes) (keep : Set Nat) : Prop where
  planned : files[i]? = some plan
  pieces : ∀ q ∈ packs, q.request.fileIdx = i → HoldsAt target q.request.offsetInFile (plain q.blobId)
  held : ∀ q ∈ packs, q.request.fileIdx = i → b.Holds env plain (q.blobId, q.locator)
  size_le : plan.size ≤ target.length
  inside : ∀ p ∈ keep, p < target.length
  whole : plan.isSelective = false → keep = ∅
  selective : plan.isSelective = true → ∃ bytes, entries i = .file bytes ∧
    bytes.length ≤ target.length ∧ ∀ p ∈ keep, bytes[p]? = target[p]?

section Tasks

variable (b : Backend) (plain : ID → Bytes) (packs : List PackRequest) (i : Nat) (target : Bytes)

/-- The blob is to be written to the file. -/
def OwesBlob (packId : ID) (w : Bytes × Nat) (e : ID × BlobLocator) : Prop :=
  ∃ q ∈ packTargets packs packId e.1, q.request.fileIdx = i ∧ w = (plain e.1, q.request.offsetInFile)

/-- The write to the file is still ahead of the task. -/
def Owes (w : Bytes × Nat) : RestoreTask → Prop
  | .waiting segment => ∃ e ∈ segment.blobs, OwesBlob plain packs i segment.packId w e
  | .running segment _ stack groups => (∃ e ∈ stack, OwesBlob plain packs i segment.packId w e) ∨
      ∃ g ∈ groups, g.1 = i ∧ w ∈ g.2

/-- The task works on a segment as it was read, and its writes to the file are pieces of the target.
-/
def TaskWF : RestoreTask → Prop
  | .waiting segment => segment.WF ∧ ∀ e ∈ segment.blobs, e ∈ packBlobs packs
  | .running segment data stack groups => segment.WF ∧ (∀ e ∈ segment.blobs, e ∈ packBlobs packs) ∧
      (∃ file, b.packs.lookup segment.packId = some file ∧
        data = readRange file segment.minOffset (segment.maxOffset - segment.minOffset)) ∧
      (∀ e ∈ stack, e ∈ segment.blobs) ∧
      ∀ g ∈ groups, g.1 = i → ∀ w ∈ g.2, HoldsAt target w.2 w.1

end Tasks

/-- The write was done. -/
def Written (entries : Nat → LocalEntry) (i : Nat) (s : RestoreState) (w : Bytes × Nat) : Prop :=
  s.initialized i = true ∧ ∃ c, contentOf (entries i) (s.ops i) = .file c ∧ HoldsAt c w.2 w.1

/-- What holds of a file as long as nothing has failed. -/
structure Progress (b : Backend) (plain : ID → Bytes) (packs : List PackRequest)
    (entries : Nat → LocalEntry) (i : Nat) (plan : FileRestorePlan) (target : Bytes) (keep : Set Nat)
    (s : RestoreState) : Prop where
  tasks : ∀ task ∈ s.tasks, TaskWF b packs i target task
  opened : plan.isSelective = false → plan.size = 0 → i ∈ s.opening ∨ s.initialized i = true
  untouched : s.initialized i = false → s.ops i = []
  once : (s.ops i).count .truncate ≤ 1
  content : s.initialized i = true → ∃ bytes,
    contentOf (entries i) (s.ops i) = .file bytes ∧ bytes.length ≤ target.length ∧
      ∀ p ∈ keep, bytes[p]? = target[p]?
  owed : ∀ q ∈ packs, q.request.fileIdx = i →
    (∃ task ∈ s.tasks, Owes plain packs i (plain q.blobId, q.request.offsetInFile) task) ∨
      Written entries i s (plain q.blobId, q.request.offsetInFile)

section Steps

variable {env : Env} {config : RestoreConfig} {b : Backend} {plain : ID → Bytes}
  {files : List FileRestorePlan} {packs : List PackRequest} {entries : Nat → LocalEntry} {i : Nat}
  {plan : FileRestorePlan} {target : Bytes} {keep : Set Nat} {getData : ID → Option BlobLocator}
  {s s' : RestoreState}

/-- A blob of the packs that is to be written to the file is held by its pack. -/
theorem FileGoal.holds (hgoal : FileGoal env b plain files packs entries i plan target keep)
    (hlocated : ∀ q ∈ packs, getData q.blobId = some q.locator) {e : ID × BlobLocator}
    (he : e ∈ packBlobs packs) {q : PackRequest} (hq : q ∈ packs) (hid : q.blobId = e.1)
    (hfile : q.request.fileIdx = i) : b.Holds env plain e := by
  obtain ⟨q', hq', hid', hloc⟩ := exists_of_mem_packBlobs he
  have hsame : q.locator = e.2 := by
    have h := hlocated q hq
    rw [hid, ← hid', hlocated q' hq'] at h
    rw [← hloc]
    exact (Option.some.inj h).symm
  have hheld := hgoal.held q hq hfile
  rw [hid, hsame] at hheld
  exact hheld

/-- The start of a batch. The segments have the blobs of all requests. -/
theorem Progress.start (hgoal : FileGoal env b plain files packs entries i plan target keep)
    (hlocated : ∀ q ∈ packs, getData q.blobId = some q.locator) {order : List (ID × BlobLocator)}
    (horder : order.Perm (packBlobs packs)) :
    Progress b plain packs entries i plan target keep
      (start config files (allSegments config.segments order)) := by
  obtain ⟨hwf, hblobs⟩ := allSegments_spec config.segments order
  refine ⟨fun task htask => ?_, fun _ _ => Or.inl ?_, fun _ => rfl, Nat.zero_le _,
    fun h => (by cases h), fun q hq hfile => Or.inl ?_⟩
  · obtain ⟨segment, hsegment, rfl⟩ := List.mem_map.mp htask
    exact ⟨hwf segment hsegment, fun e he => horder.mem_iff.mp ((hblobs e).mp ⟨segment, hsegment, he⟩)⟩
  · exact List.mem_range.mpr (List.getElem?_eq_some_iff.mp hgoal.planned).1
  · have hmem := mem_packBlobs hlocated hq
    obtain ⟨segment, hsegment, he⟩ := (hblobs _).mpr (horder.mem_iff.mpr hmem)
    refine ⟨_, List.mem_map_of_mem hsegment, _, he, q, ?_, hfile, rfl⟩
    exact mem_packTargets.mpr ⟨hq, (hwf segment hsegment _ he).1, rfl⟩

/-- The tasks change, and every write that was ahead of one still is. -/
theorem Progress.retask (h : Progress b plain packs entries i plan target keep s)
    {tasks : List RestoreTask} (hwf : ∀ task ∈ tasks, TaskWF b packs i target task)
    (howes : ∀ w, (∃ task ∈ s.tasks, Owes plain packs i w task) →
      ∃ task ∈ tasks, Owes plain packs i w task) :
    Progress b plain packs entries i plan target keep { s with tasks := tasks } :=
  ⟨hwf, h.opened, h.untouched, h.once, h.content,
    fun q hq hfile => (h.owed q hq hfile).imp_left (howes _)⟩

/-- The caches and the failures do not matter. -/
theorem Progress.congr (h : Progress b plain packs entries i plan target keep s)
    (hops : s'.ops = s.ops)
    (hinit : s'.initialized = s.initialized) (hopening : s'.opening = s.opening)
    (htasks : s'.tasks = s.tasks) : Progress b plain packs entries i plan target keep s' := by
  refine ⟨?_, ?_, ?_, ?_, ?_, ?_⟩
  · rw [htasks]
    exact h.tasks
  · rw [hopening, hinit]
    exact h.opened
  · rw [hinit, hops]
    exact h.untouched
  · rw [hops]
    exact h.once
  · rw [hinit, hops]
    exact h.content
  · unfold Written
    rw [htasks, hinit, hops]
    exact h.owed

/-- One task takes the place of another. -/
theorem Progress.replace (h : Progress b plain packs entries i plan target keep s)
    {before after : List RestoreTask} {task : RestoreTask} (new : List RestoreTask)
    (htasks : s.tasks = before ++ task :: after) (hwf : ∀ t ∈ new, TaskWF b packs i target t)
    (howes : ∀ w, Owes plain packs i w task → ∃ t ∈ new, Owes plain packs i w t) :
    Progress b plain packs entries i plan target keep { s with tasks := before ++ new ++ after } := by
  refine h.retask (fun t ht => ?_) fun w => ?_
  · rcases List.mem_append.mp ht with ht | ht
    · rcases List.mem_append.mp ht with ht | ht
      · exact h.tasks t (by rw [htasks]; exact List.mem_append_left _ ht)
      · exact hwf t ht
    · exact h.tasks t (by rw [htasks]; exact List.mem_append_right _ (List.mem_cons_of_mem _ ht))
  · rintro ⟨t, ht, hw⟩
    rw [htasks] at ht
    rcases List.mem_append.mp ht with ht | ht
    · exact ⟨t, List.mem_append_left _ (List.mem_append_left _ ht), hw⟩
    · rcases List.mem_cons.mp ht with rfl | ht
      · obtain ⟨t', ht', hw'⟩ := howes w hw
        exact ⟨t', List.mem_append_left _ (List.mem_append_right _ ht'), hw'⟩
      · exact ⟨t, List.mem_append_right _ ht, hw⟩

/-- Pieces of the target are written one after the other. -/
theorem contentOf_writeOps (writes : List (Bytes × Nat)) {x : Bytes}
    (hpieces : ∀ w ∈ writes, HoldsAt target w.2 w.1) (hlen : x.length ≤ target.length) :
    ∃ x', contentOf (.file x) (writeOps writes) = .file x' ∧ x'.length ≤ target.length ∧
      (∀ p, p < target.length → x[p]? = target[p]? → x'[p]? = target[p]?) ∧
      (∀ w ∈ writes, HoldsAt x' w.2 w.1) ∧
      ∀ w : Bytes × Nat, HoldsAt target w.2 w.1 → HoldsAt x w.2 w.1 → HoldsAt x' w.2 w.1 := by
  induction writes generalizing x with
  | nil => exact ⟨x, rfl, hlen, fun _ _ h => h, fun w hw => (by cases hw), fun _ _ h => h⟩
  | cons w ws ih =>
    have hpiece := hpieces w List.mem_cons_self
    obtain ⟨x', hcontent, hlen', hagree, hnew, hold⟩ :=
      ih (x := writeAt 0 x w.2 w.1) (fun w' hw' => hpieces w' (List.mem_cons_of_mem _ hw'))
        (length_writeAt_le hpiece hlen)
    refine ⟨x', hcontent, hlen', fun p hp h => ?_, fun w' hw' => ?_, fun w' htarget h => ?_⟩
    · exact hagree p hp (getElem?_writeAt_of_agrees hpiece hp h)
    · rcases List.mem_cons.mp hw' with rfl | hw'
      · exact hold w' hpiece holdsAt_writeAt
      · exact hnew w' hw'
    · exact hold w' htarget (h.writeAt htarget hpiece)

/-- The file after a handle was returned. -/
theorem Progress.opened_content (hgoal : FileGoal env b plain files packs entries i plan target keep)
    (hsafe : Safe i s) (h : Progress b plain packs entries i plan target keep s) {shard : Nat}
    {cache : FileHandleCache} {init : Bool} {ops : List FileOp}
    (hget : GetHandle config.preallocate plan i (contentOf (entries i) (s.ops i)) (s.caches shard)
      (s.initialized i) cache init ops true) :
    init = true ∧ (s.ops i ++ ops).count .truncate ≤ 1 ∧
      ∃ bytes, contentOf (entries i) (s.ops i ++ ops) = .file bytes ∧ bytes.length ≤ target.length ∧
        (∀ p ∈ keep, bytes[p]? = target[p]?) ∧
        ∀ w, Written entries i s w → HoldsAt bytes w.2 w.1 := by
  obtain ⟨-, -, hkeep, hinit⟩ := hget.frame
  cases hold : s.initialized i with
  | true =>
    -- nothing happens to a file that is initialized
    obtain ⟨htrue, rfl⟩ := hkeep hold
    obtain ⟨c, hcontent, hlen, hagree⟩ := h.content hold
    rw [List.append_nil]
    refine ⟨htrue, h.once, c, hcontent, hlen, hagree, ?_⟩
    rintro w ⟨-, c', hcontent', hholds⟩
    rw [hcontent] at hcontent'
    cases hcontent'
    exact hholds
  | false =>
    have hnil := h.untouched hold
    have hnew : ∀ c w, Written entries i s w → HoldsAt c w.2 w.1 := by
      rintro c w ⟨htrue, -⟩
      rw [hold] at htrue
      cases htrue
    rw [hold, hnil] at hget
    rw [hnil, List.nil_append]
    cases hget with
    | hit hmem =>
      have htrue := hsafe.cached shard i hmem
      rw [hold] at htrue
      cases htrue
    | selective hmem hsel hentry =>
      obtain ⟨bytes, hentry', hlen, hagree⟩ := hgoal.selective hsel
      exact ⟨rfl, Nat.zero_le _, bytes, hentry', hlen, hagree, hnew bytes⟩
    | create hmem hsel hinits =>
      obtain ⟨-, hcount, length, hle, hcontent⟩ := hinits.spec
      refine ⟨rfl, le_of_eq hcount, _, hcontent, ?_, ?_, hnew _⟩
      · rw [List.length_replicate]
        exact hle.trans hgoal.size_le
      · rw [hgoal.whole hsel]
        exact fun p hp => hp.elim

/-- **A handle for the file, and pieces that are written to it.** What was written before stays. -/
theorem Progress.handled_self (hgoal : FileGoal env b plain files packs entries i plan target keep)
    (hsafe : Safe i s) (h : Progress b plain packs entries i plan target keep s) {shard : Nat}
    {cache : FileHandleCache} {init : Bool} {ops : List FileOp}
    (hget : GetHandle config.preallocate plan i (contentOf (entries i) (s.ops i)) (s.caches shard)
      (s.initialized i) cache init ops true)
    {writes : List (Bytes × Nat)} (hpieces : ∀ w ∈ writes, HoldsAt target w.2 w.1)
    (opening : List Nat) {tasks : List RestoreTask}
    (hwf : ∀ task ∈ tasks, TaskWF b packs i target task)
    (howes : ∀ w, (∃ task ∈ s.tasks, Owes plain packs i w task) →
      (∃ task ∈ tasks, Owes plain packs i w task) ∨ w ∈ writes) :
    Progress b plain packs entries i plan target keep
      { s.handled shard i cache init (ops ++ writeOps writes) with
        opening := opening, tasks := tasks } := by
  obtain ⟨rfl, hcount, c₀, hcontent₀, hlen₀, hagree₀, hwritten₀⟩ := h.opened_content hgoal hsafe hget
  obtain ⟨c, hcontent, hlen, hagree, hnew, hold⟩ := contentOf_writeOps writes hpieces hlen₀
  have hall : contentOf (entries i) (s.ops i ++ (ops ++ writeOps writes)) = .file c := by
    rw [← List.append_assoc, contentOf_append, hcontent₀]
    exact hcontent
  have hself : Function.update s.initialized i true i = true := Function.update_self ..
  refine ⟨hwf, fun _ _ => Or.inr hself, fun hfalse => ?_, ?_, fun _ => ?_, fun q hq hfile => ?_⟩
  · dsimp only [RestoreState.handled] at hfalse
    rw [hself] at hfalse
    cases hfalse
  · dsimp only [RestoreState.handled]
    rw [Function.update_self, ← List.append_assoc, List.count_append,
      List.count_eq_zero.mpr (truncate_notMem_of_write (isWrite_writeOps writes))]
    exact hcount
  · dsimp only [RestoreState.handled]
    rw [Function.update_self]
    exact ⟨c, hall, hlen, fun p hp => hagree p (hgoal.inside p hp) (hagree₀ p hp)⟩
  · have hdone : ∀ w : Bytes × Nat, HoldsAt c w.2 w.1 → Written entries i
        { s.handled shard i cache true (ops ++ writeOps writes) with
          opening := opening, tasks := tasks } w := by
      intro w hholds
      refine ⟨hself, c, ?_, hholds⟩
      dsimp only [RestoreState.handled]
      rw [Function.update_self]
      exact hall
    rcases h.owed q hq hfile with hahead | hwritten
    · rcases howes _ hahead with hahead | hmem
      · exact Or.inl hahead
      · exact Or.inr (hdone _ (hnew _ hmem))
    · exact Or.inr (hdone _ (hold _ (hgoal.pieces q hq hfile) (hwritten₀ _ hwritten)))

/-- A handle for another file. -/
theorem Progress.handled_of_ne (h : Progress b plain packs entries i plan target keep s)
    {shard idx : Nat} (hne : i ≠ idx) {cache : FileHandleCache} {init : Bool} {ops : List FileOp}
    {opening : List Nat} {tasks : List RestoreTask}
    (hopening : i ∈ s.opening → i ∈ opening) (hwf : ∀ task ∈ tasks, TaskWF b packs i target task)
    (howes : ∀ w, (∃ task ∈ s.tasks, Owes plain packs i w task) →
      ∃ task ∈ tasks, Owes plain packs i w task) :
    Progress b plain packs entries i plan target keep
      { s.handled shard idx cache init ops with opening := opening, tasks := tasks } := by
  have hops : Function.update s.ops idx (s.ops idx ++ ops) i = s.ops i := Function.update_of_ne hne ..
  have hinit : Function.update s.initialized idx init i = s.initialized i := Function.update_of_ne
    hne ..
  refine ⟨hwf, ?_, ?_, ?_, ?_, fun q hq hfile => ?_⟩
  · dsimp only [RestoreState.handled]
    rw [hinit]
    exact fun hsel hsize => (h.opened hsel hsize).imp_left hopening
  · dsimp only [RestoreState.handled]
    rw [hinit, hops]
    exact h.untouched
  · dsimp only [RestoreState.handled]
    rw [hops]
    exact h.once
  · dsimp only [RestoreState.handled]
    rw [hinit, hops]
    exact h.content
  · refine (h.owed q hq hfile).imp (howes _) fun hwritten => ?_
    unfold Written at hwritten ⊢
    dsimp only [RestoreState.handled]
    rw [hinit, hops]
    exact hwritten

/-- A batch of blobs is decoded. -/
theorem decode_task (hgoal : FileGoal env b plain files packs entries i plan target keep)
    (hlocated : ∀ q ∈ packs, getData q.blobId = some q.locator) {segment : PackSegment} {data : Bytes}
    {stack : List (ID × BlobLocator)} {decoded : List (Bytes × List PackRequest)} {budget : Nat}
    (hwf : TaskWF b packs i target (.running segment data stack []))
    (hdecode : (popBatch budget 0 stack).1.mapM (decodeTargets env packs segment data) =
    some decoded) :
    TaskWF b packs i target (.running segment data (popBatch budget 0 stack).2 (fileBatches decoded)) ∧
      ∀ w, Owes plain packs i w (.running segment data stack []) →
        Owes plain packs i w (.running segment data (popBatch budget 0 stack).2
          (fileBatches decoded)) := by
  obtain ⟨hsegment, hblobs, ⟨file, hfile, hdata⟩, hstack, -⟩ := hwf
  have hsplit := popBatch_append budget 0 stack
  obtain ⟨hleft, hright⟩ := mem_of_mapM hdecode
  -- what a blob with a target in the file is decoded to
  have hplain : ∀ e ∈ (popBatch budget 0 stack).1, ∀ d,
      decodeTargets env packs segment data e = some d →
      d.2 = packTargets packs segment.packId e.1 ∧
        ∀ q ∈ d.2, q.request.fileIdx = i → d.1 = plain e.1 := by
    intro e he d hd
    obtain ⟨bytes, hbytes, rfl⟩ := Option.map_eq_some_iff.mp hd
    refine ⟨rfl, fun q hq hfileIdx => ?_⟩
    obtain ⟨hqmem, -, hqid⟩ := mem_packTargets.mp hq
    have hmem : e ∈ segment.blobs :=
      hstack e (by rw [← hsplit]; exact List.mem_append_left _ he)
    have hholds := hgoal.holds hlocated (hblobs e hmem) hqmem hqid hfileIdx
    rw [hdata] at hbytes
    exact decodeBlob_eq hfile hsegment hmem hholds hbytes
  refine ⟨⟨hsegment, hblobs, ⟨file, hfile, hdata⟩, fun e he => ?_, fun g hg hgi w hw => ?_⟩,
    fun w => ?_⟩
  · exact hstack e (by rw [← hsplit]; exact List.mem_append_right _ he)
  · obtain ⟨d, hd, q, hq, hfileIdx, rfl⟩ := mem_fileBatches.mp ⟨g, hg, hgi, hw⟩
    obtain ⟨e, he, hed⟩ := hright d hd
    obtain ⟨htargets, hbytes⟩ := hplain e he d hed
    rw [hbytes q hq hfileIdx]
    rw [htargets] at hq
    obtain ⟨hqmem, -, hqid⟩ := mem_packTargets.mp hq
    rw [← hqid]
    exact hgoal.pieces q hqmem hfileIdx
  · rintro (⟨e, he, howes⟩ | ⟨g, hg, -⟩)
    · rw [← hsplit] at he
      rcases List.mem_append.mp he with he | he
      · obtain ⟨q, hq, hfileIdx, rfl⟩ := howes
        obtain ⟨d, hd, hed⟩ := hleft e he
        obtain ⟨htargets, hbytes⟩ := hplain e he d hed
        rw [← htargets] at hq
        refine Or.inr (mem_fileBatches.mpr ⟨d, hd, q, hq, hfileIdx, ?_⟩)
        rw [hbytes q hq hfileIdx]
      · exact Or.inl ⟨e, he, howes⟩
    · cases hg

/-- The writes of a group leave the task. -/
theorem write_tasks (plain : ID → Bytes) {before after : List RestoreTask} {segment : PackSegment}
    {data : Bytes}
    {stack : List (ID × BlobLocator)} {groups groups' : List (Nat × List (Bytes × Nat))} {idx : Nat}
    {writes : List (Bytes × Nat)}
    (hwf : ∀ task ∈ before ++ .running segment data stack (groups ++ (idx, writes) :: groups') ::
    after,
      TaskWF b packs i target task) :
    (∀ task ∈ before ++ .running segment data stack (groups ++ groups') :: after,
      TaskWF b packs i target task) ∧
    (idx = i → ∀ w ∈ writes, HoldsAt target w.2 w.1) ∧
    ∀ w, (∃ task ∈ before ++ .running segment data stack (groups ++ (idx, writes) :: groups') :: after,
        Owes plain packs i w task) →
      (∃ task ∈ before ++ .running segment data stack (groups ++ groups') :: after,
        Owes plain packs i w task) ∨ (idx = i ∧ w ∈ writes) := by
  obtain ⟨hsegment, hblobs, hread, hstack, hpieces⟩ :=
    hwf _ (List.mem_append_right _ List.mem_cons_self)
  have hsub : ∀ g ∈ groups ++ groups', g ∈ groups ++ (idx, writes) :: groups' := by
    intro g hg
    rcases List.mem_append.mp hg with hg | hg
    · exact List.mem_append_left _ hg
    · exact List.mem_append_right _ (List.mem_cons_of_mem _ hg)
  refine ⟨fun task htask => ?_, fun hidx => ?_, ?_⟩
  · rcases List.mem_append.mp htask with htask | htask
    · exact hwf task (List.mem_append_left _ htask)
    · rcases List.mem_cons.mp htask with rfl | htask
      · exact ⟨hsegment, hblobs, hread, hstack, fun g hg => hpieces g (hsub g hg)⟩
      · exact hwf task (List.mem_append_right _ (List.mem_cons_of_mem _ htask))
  · exact hpieces (idx, writes) (List.mem_append_right _ List.mem_cons_self) hidx
  · rintro w ⟨task, htask, howes⟩
    rcases List.mem_append.mp htask with htask | htask
    · exact Or.inl ⟨task, List.mem_append_left _ htask, howes⟩
    · rcases List.mem_cons.mp htask with rfl | htask
      · rcases howes with hblob | ⟨g, hg, hgi, hw⟩
        · exact Or.inl ⟨_, List.mem_append_right _ List.mem_cons_self, Or.inl hblob⟩
        · -- the write is in the group, or in one that stays
          have hcases : g ∈ groups ++ groups' ∨ g = (idx, writes) := by
            rcases List.mem_append.mp hg with hg | hg
            · exact Or.inl (List.mem_append_left _ hg)
            · rcases List.mem_cons.mp hg with rfl | hg
              · exact Or.inr rfl
              · exact Or.inl (List.mem_append_right _ hg)
          rcases hcases with hmem | rfl
          · exact Or.inl ⟨_, List.mem_append_right _ List.mem_cons_self, Or.inr ⟨g, hmem, hgi, hw⟩⟩
          · exact Or.inr ⟨hgi, hw⟩
      · exact Or.inl ⟨task, List.mem_append_right _ (List.mem_cons_of_mem _ htask), howes⟩

/-- An empty file is opened by the first loop. -/
theorem needsOpening_of_empty {entry : LocalEntry} (hsel : plan.isSelective = false)
    (hsize : plan.size = 0) : needsOpening plan entry = true := by
  simp [needsOpening, hsel, hsize]

/-- **A step that does not fail.** -/
theorem Progress.step {l : Unit} (hgoal : FileGoal env b plain files packs entries i plan target keep)
    (hlocated : ∀ q ∈ packs, getData q.blobId = some q.locator) (hsafe : Safe i s)
    (h : Progress b plain packs entries i plan target keep s)
    (hstep : Step env config b files packs entries s l s') (hok : s'.failed = false) :
    Progress b plain packs entries i plan target keep s' := by
  cases hstep with
  | @skip idx rest plan' hopening hplan hneeds =>
    refine ⟨h.tasks, fun hsel hsize => ?_, h.untouched, h.once, h.content, h.owed⟩
    refine (h.opened hsel hsize).imp_left fun hmem => ?_
    rw [hopening] at hmem
    rcases List.mem_cons.mp hmem with rfl | hmem
    · rw [hgoal.planned] at hplan
      cases hplan
      rw [needsOpening_of_empty hsel hsize] at hneeds
      cases hneeds
    · exact hmem
  | @openFile idx rest plan' cache init ok ops hopening hplan hneeds hget =>
    have htrue : ok = true := by
      cases ok with
      | true => rfl
      | false =>
        dsimp only at hok
        simp at hok
    subst htrue
    by_cases heq : i = idx
    · subst heq
      rw [hgoal.planned] at hplan
      cases hplan
      have hnone : ∀ w ∈ ([] : List (Bytes × Nat)), HoldsAt target w.2 w.1 := fun w hw => by cases hw
      have hnew := h.handled_self hgoal hsafe hget hnone rest h.tasks fun w hw => Or.inl hw
      exact hnew.congr (by simp [writeOps, RestoreState.handled]) rfl rfl rfl
    · refine Progress.congr (s := { s.handled (idx % config.numShards) idx cache init ops with
        opening := rest }) ?_ rfl rfl rfl rfl
      refine h.handled_of_ne heq (fun hmem => ?_) h.tasks fun w hw => hw
      rw [hopening] at hmem
      exact (List.mem_cons.mp hmem).resolve_left heq
  | @read before after segment file hopening htasks hfile =>
    obtain ⟨hwf, hblobs⟩ : TaskWF b packs i target (.waiting segment) :=
      h.tasks _ (by rw [htasks]; exact List.mem_append_right _ List.mem_cons_self)
    have hnew := h.replace [.running segment
      (readRange file segment.minOffset (segment.maxOffset - segment.minOffset))
      segment.blobs.reverse []] htasks (fun t ht => ?_) fun w howes => ?_
    · exact hnew.congr rfl rfl rfl (by simp)
    · rw [List.mem_singleton.mp ht]
      exact ⟨hwf, hblobs, ⟨file, hfile, rfl⟩, fun e he => List.mem_reverse.mp he,
        fun g hg => by cases hg⟩
    · obtain ⟨e, he, hblob⟩ := howes
      exact ⟨_, List.mem_singleton_self _, Or.inl ⟨e, List.mem_reverse.mpr he, hblob⟩⟩
  | @decode before after segment data stack decoded htasks hne hdecode =>
    have hwf : TaskWF b packs i target (.running segment data stack []) :=
      h.tasks _ (by rw [htasks]; exact List.mem_append_right _ List.mem_cons_self)
    obtain ⟨hwf', howes⟩ := decode_task hgoal hlocated hwf hdecode
    have hnew := h.replace [.running segment data (popBatch config.decodedBudget 0 stack).2
      (fileBatches decoded)] htasks (fun t ht => ?_) fun w hw => ?_
    · exact hnew.congr rfl rfl rfl (by simp)
    · rw [List.mem_singleton.mp ht]
      exact hwf'
    · exact ⟨_, List.mem_singleton_self _, howes w hw⟩
  | @write before after segment data stack groups groups' idx writes plan' cache init ops htasks
    hplan hget =>
    have hwf := h.tasks
    rw [htasks] at hwf
    obtain ⟨hwf', hpieces, howes⟩ := write_tasks plain hwf
    rw [← htasks] at howes
    by_cases heq : i = idx
    · subst heq
      rw [hgoal.planned] at hplan
      cases hplan
      exact h.handled_self hgoal hsafe hget (hpieces rfl) s.opening hwf' fun w hw =>
        (howes w hw).imp_right And.right
    · refine h.handled_of_ne heq id hwf' fun w hw => ?_
      exact (howes w hw).resolve_right fun hidx => heq hidx.1.symm
  | writeFail => cases hok
  | finish htasks =>
    have hnew := h.replace [] htasks (fun t ht => (by cases ht)) fun w howes => ?_
    · exact hnew.congr rfl rfl rfl (by simp)
    · rcases howes with ⟨e, he, -⟩ | ⟨g, hg, -⟩
      · cases he
      · cases hg
  | fail => cases hok

/-- A failure stays. -/
theorem failed_of_step {l : Unit} (hstep : Step env config b files packs entries s l s')
    (h : s.failed = true) : s'.failed = true := by
  cases hstep with
  | openFile =>
    dsimp only
    rw [h, Bool.true_or]
  | writeFail | fail => rfl
  | _ => exact h

/-- **What holds of a file along every run without failures.** -/
theorem progress_of_run (hgoal : FileGoal env b plain files packs entries i plan target keep)
    (hlocated : ∀ q ∈ packs, getData q.blobId = some q.locator)
    {order : List (ID × BlobLocator)} (horder : order.Perm (packBlobs packs)) {ls : List Unit}
    (hrun : Run (Step env config b files packs entries)
      (start config files (allSegments config.segments order)) ls s)
    (hok : s.failed = false) :
    Safe i s ∧ Progress b plain packs entries i plan target keep s := by
  have hinv : Safe i s ∧ (s.failed = false → Progress b plain packs entries i plan target keep s) := by
    refine hrun.invariant (P := fun s => Safe i s ∧
      (s.failed = false → Progress b plain packs entries i plan target keep s)) ?_
      ⟨.start, fun _ => .start hgoal hlocated horder⟩
    intro s l s' h hstep
    refine ⟨h.1.step hstep, fun hok => ?_⟩
    have hbefore : s.failed = false := by
      by_contra hne
      have htrue := failed_of_step hstep (by simpa using hne)
      rw [hok] at htrue
      cases htrue
    exact (h.2 hbefore).step hgoal hlocated h.1 hstep hok
  exact ⟨hinv.1, hinv.2 hok⟩

/-- **The file after a run without failures is the target.** -/
theorem content_eq_of_done (hgoal : FileGoal env b plain files packs entries i plan target keep)
    (hlocated : ∀ q ∈ packs, getData q.blobId = some q.locator)
    (hcovered : ∀ p, p < target.length → p ∈ keep ∨ ∃ q ∈ packs, q.request.fileIdx = i ∧
      q.request.offsetInFile ≤ p ∧ p < q.request.offsetInFile + (plain q.blobId).length)
    {order : List (ID × BlobLocator)} (horder : order.Perm (packBlobs packs)) {ls : List Unit}
    (hrun : Run (Step env config b files packs entries)
      (start config files (allSegments config.segments order)) ls s)
    (hdone : s.Done) (hok : s.failed = false) : contentOf (entries i) (s.ops i) = .file target := by
  have hprogress := (progress_of_run hgoal hlocated horder hrun hok).2
  -- no task is left, so every piece was written
  have hwritten : ∀ q ∈ packs, q.request.fileIdx = i →
      Written entries i s (plain q.blobId, q.request.offsetInFile) := by
    intro q hq hfile
    refine (hprogress.owed q hq hfile).resolve_left ?_
    rintro ⟨task, htask, -⟩
    rw [hdone.2] at htask
    cases htask
  have hcontent : ∃ bytes, contentOf (entries i) (s.ops i) = .file bytes ∧
      bytes.length ≤ target.length ∧ ∀ p ∈ keep, bytes[p]? = target[p]? := by
    cases hinit : s.initialized i with
    | true => exact hprogress.content hinit
    | false =>
      rw [hprogress.untouched hinit]
      cases hsel : plan.isSelective with
      | true => exact hgoal.selective hsel
      | false =>
        -- a file without pieces is empty, and the first loop has opened it
        have hnil : target.length = 0 := by
          by_contra hne
          rcases hcovered 0 (by omega) with hmem | ⟨q, hq, hfile, -⟩
          · rw [hgoal.whole hsel] at hmem
            exact hmem.elim
          · have htrue := (hwritten q hq hfile).1
            rw [hinit] at htrue
            cases htrue
        have hsize : plan.size = 0 := by
          have hle := hgoal.size_le
          omega
        rcases hprogress.opened hsel hsize with hmem | htrue
        · rw [hdone.1] at hmem
          cases hmem
        · rw [hinit] at htrue
          cases htrue
  obtain ⟨c, hc, hlen, hagree⟩ := hcontent
  rw [hc]
  congr 1
  refine eq_of_covered hlen fun p hp => ?_
  rcases hcovered p hp with hmem | ⟨q, hq, hfile, hlo, hhi⟩
  · exact hagree p hmem
  · obtain ⟨-, c', hc', hholds⟩ := hwritten q hq hfile
    rw [hc] at hc'
    cases hc'
    have hpiece := hgoal.pieces q hq hfile
    obtain ⟨k, rfl⟩ : ∃ k, p = q.request.offsetInFile + k := ⟨p - q.request.offsetInFile, by omega⟩
    have hk : k < (plain q.blobId).length := by omega
    exact (hholds k hk).trans (hpiece k hk).symm

end Steps

end RestoreState

end Mapache
