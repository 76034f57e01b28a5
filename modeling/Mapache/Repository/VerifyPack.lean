import Mapache.Repository.SaveBlob

/-!
# The two pack verifiers

`verify_pack` of `repository/verify.rs` has two implementations. `verify_pack_inline` reads a pack
as a whole, hashes it and cuts every blob of the footer out of it. `verify_pack_streaming` reads the
footer first, then the data in chunks up to the end of the last blob, hashes the chunks and the
footer, and collects the blobs from the chunks in the order of the footer. Both decode each blob and
compare the hash of the plaintext with its ID.

The streaming verifier does not read what lies between the last blob and the footer, and it never
comes to a blob that reaches beyond the file or is empty at the end of the data. `streamed` are the
blobs that it comes to, and `VerifiersAgree` says when the rest makes no difference.
-/

set_option autoImplicit false

namespace Mapache

open Lib

/-- `PackStats`. -/
structure PackStats where
  dangling : Nat
  verifiedBlobs : Nat
  corruptBlobs : List ID
  bytesProcessed : Nat
  bitRot : Bool
  deriving DecidableEq

/-- The counts of `batch_verify`: verified blobs, corrupt blobs and bytes. -/
structure BlobCounts where
  verified : Nat
  corrupt : List ID
  bytes : Nat
  deriving DecidableEq

namespace BlobCounts

def zero : BlobCounts := ⟨0, [], 0⟩

@[simp] theorem verified_zero : zero.verified = 0 := rfl

@[simp] theorem corrupt_zero : zero.corrupt = [] := rfl

/-- The `reduce` of two counts. -/
def add (a b : BlobCounts) : BlobCounts :=
  ⟨a.verified + b.verified, a.corrupt ++ b.corrupt, a.bytes + b.bytes⟩

end BlobCounts

/-- `CHUNK_SIZE`. -/
def chunkSize : Nat := 64 * 2 ^ 20

/-- `MAX_VERIFICATION_BATCH_SIZE`. -/
def maxVerificationBatchSize : Nat := 64 * 2 ^ 20

section Blobs

variable (env : Env)

/-- The check of one blob: it decodes and its plaintext has the ID. -/
def countBlob (counts : BlobCounts) (e : ID × Bytes) : BlobCounts :=
  match env.storage.decode e.2 with
  | some plaintext =>
    if env.fromContent plaintext ≠ e.1 then
      ⟨counts.verified, counts.corrupt ++ [e.1], counts.bytes + e.2.length⟩
    else ⟨counts.verified + 1, counts.corrupt, counts.bytes + e.2.length⟩
  | none => ⟨counts.verified, counts.corrupt ++ [e.1], counts.bytes + e.2.length⟩

/-- `batch_verify`. -/
def batchVerify (batch : List (ID × Bytes)) : BlobCounts := batch.foldl (countBlob env) .zero

/-- The number of blobs of the footer that the index does not know. -/
def numDangling (mi : MasterIndex) (packHeader : List PackedBlobDescriptor) : Nat :=
  packHeader.countP fun d => !mi.contains env.toIndexEnv d.id

/-! ## The inline verifier -/

/-- The check of one blob of the footer: a blob that ends behind the end of the file is corrupt. -/
def countDescriptor (rawData : Bytes) (counts : BlobCounts) (d : PackedBlobDescriptor) : BlobCounts :=
  if rawData.length < d.offset + d.length then
    ⟨counts.verified, counts.corrupt ++ [d.id], counts.bytes⟩
  else countBlob env counts (d.id, slice rawData d.offset (d.offset + d.length))

/-- `verify_pack_inline`. -/
def verifyPackInline (mi : MasterIndex) (rawData : Bytes) (packId : ID) : Option PackStats :=
  (Packer.parseFooter env.storage rawData).map fun packHeader =>
    let counts := packHeader.foldl (countDescriptor env rawData) .zero
    { dangling := numDangling env mi packHeader
      verifiedBlobs := counts.verified
      corruptBlobs := counts.corrupt
      bytesProcessed := counts.bytes
      bitRot := env.fromContent rawData ≠ packId }

/-! ## The streaming verifier -/

/-- What the loop over the chunks has collected. -/
structure Collected where
  /-- The bytes of a blob that goes on in the next chunk. -/
  blobAcc : Bytes
  pendingBlobs : List (ID × Bytes)
  pendingBlobsSize : Nat
  /-- The batches that were sent to the verifier. -/
  sent : List (List (ID × Bytes))

namespace Collected

def start : Collected := ⟨[], [], 0, []⟩

/-- Add a blob, and send the batch when it is large enough. -/
def push (s : Collected) (e : ID × Bytes) : Collected :=
  if maxVerificationBatchSize ≤ s.pendingBlobsSize + e.2.length then
    ⟨[], [], 0, s.sent ++ [s.pendingBlobs ++ [e]]⟩
  else ⟨[], s.pendingBlobs ++ [e], s.pendingBlobsSize + e.2.length, s.sent⟩

/-- The batches after the last one was sent. -/
def batches (s : Collected) : List (List (ID × Bytes)) :=
  if s.pendingBlobs = [] then s.sent else s.sent ++ [s.pendingBlobs]

end Collected

/-- The bytes of a blob that are known after the chunk `k`, which is given with its start, when
`acc` are those of the chunks before. -/
def accumulate (k : Nat × Bytes) (d : PackedBlobDescriptor) (acc : Bytes) : Bytes :=
  let is := max d.offset k.1
  let ie := min (d.offset + d.length) (k.1 + k.2.length)
  if is < ie then acc ++ slice k.2 (is - k.1) (ie - k.1) else acc

/-- The inner loop over the blobs of one chunk. It returns the blobs of the footer that are left. -/
def consumeChunk (k : Nat × Bytes) :
    List PackedBlobDescriptor → Collected → List PackedBlobDescriptor × Collected
  | [], s => ([], s)
  | d :: rest, s =>
    let cs := k.1
    let ce := cs + k.2.length
    let bs := d.offset
    let be := bs + d.length
    if ce ≤ bs then (d :: rest, s)
    else if s.blobAcc = [] ∧ cs ≤ bs ∧ be ≤ ce then
      consumeChunk k rest (s.push (d.id, slice k.2 (bs - cs) (be - cs)))
    else if (accumulate k d s.blobAcc).length = d.length then
      consumeChunk k rest (s.push (d.id, accumulate k d s.blobAcc))
    else (d :: rest, { s with blobAcc := accumulate k d s.blobAcc })

/-- The end of the last blob of the footer. -/
def dataEnd (packHeader : List PackedBlobDescriptor) : Nat :=
  match packHeader.getLast? with
  | some d => d.offset + d.length
  | none => 0

/-- The chunk of size `c` with a number: its start and what is read there. -/
def readChunk (c : Nat) (data : Bytes) (dataEnd i : Nat) : Nat × Bytes :=
  (i * c, readRange data (i * c) (min (dataEnd - i * c) c))

/-- The number of chunks up to the end of the data. -/
def numChunks (c dataEnd : Nat) : Nat := (dataEnd + c - 1) / c

/-- The chunks in order. -/
def chunks (c : Nat) (data : Bytes) (dataEnd : Nat) : List (Nat × Bytes) :=
  (List.range (numChunks c dataEnd)).map (readChunk c data dataEnd)

/-- The loop over the chunks. -/
def collectBlobs (chunks : List (Nat × Bytes)) (s : List PackedBlobDescriptor × Collected) :
    List PackedBlobDescriptor × Collected :=
  chunks.foldl (fun s k => consumeChunk k s.1 s.2) s

/-- The footer with its length, as it is read from the end of the file. -/
def footerRaw (data : Bytes) : Bytes :=
  data.drop (data.length - (4 + ofLittleEndian (data.drop (data.length - 4))))

/-- `verify_pack_streaming` returns the result. The batches are verified in any order. -/
def VerifiesStreaming (mi : MasterIndex) (data : Bytes) (packId : ID) (result : Option PackStats) :
    Prop :=
  match Packer.parsePackFooter env.storage data with
  | none => result = none
  | some packHeader =>
    let read := chunks chunkSize data (dataEnd packHeader)
    let hashed := (read.map Prod.snd).flatten ++ footerRaw data
    ∃ order : List (List (ID × Bytes)),
      order.Perm (collectBlobs read (packHeader, .start)).2.batches ∧
      let counts := (order.map (batchVerify env)).foldl BlobCounts.add .zero
      result = some
        { dangling := numDangling env mi packHeader
          verifiedBlobs := counts.verified
          corruptBlobs := counts.corrupt
          bytesProcessed := counts.bytes
          bitRot := env.fromContent hashed ≠ packId }

end Blobs

/-! ## What the loop over the chunks collects -/

/-- The offsets of the blobs follow each other, with 32 bits. -/
def Contiguous : Nat → List PackedBlobDescriptor → Prop
  | _, [] => True
  | offset, d :: ds =>
    d.offset = offset ∧ d.length < 2 ^ 32 ∧ Contiguous ((offset + d.length) % 2 ^ 32) ds

/-- The blobs that the loop over the chunks comes to, when the data behind `pos` is to be read. A
blob with bytes has to lie in the part of the file that is read, and an empty one before the end
`reach` of a chunk. When the offsets have wrapped around, only empty blobs are still found. -/
def streamed (readEnd reach : Nat) : Nat → List PackedBlobDescriptor → List PackedBlobDescriptor
  | _, [] => []
  | pos, d :: ds =>
    if d.length = 0 then if pos < reach then d :: streamed readEnd reach pos ds else []
    else if readEnd < pos + d.length then []
    else if pos + d.length < 2 ^ 32 then d :: streamed readEnd reach (pos + d.length) ds
    else d :: ds.takeWhile fun d' => d'.length = 0

/-- The end of the last chunk. A chunk behind the end of the file is empty. -/
def lastChunkEnd (c : Nat) (data : Bytes) (dataEnd : Nat) : Nat :=
  max (min dataEnd data.length) ((dataEnd - 1) / c * c)

/-- The blob as the file has it. -/
def blobAt (data : Bytes) (d : PackedBlobDescriptor) : ID × Bytes :=
  (d.id, slice data d.offset (d.offset + d.length))

theorem chunkSize_pos : 0 < chunkSize := by decide

theorem chunkSize_lt : chunkSize < 2 ^ 32 := by decide

namespace Collected

/-- The blobs that were collected, in their order. -/
def delivered (s : Collected) : List (ID × Bytes) := s.sent.flatten ++ s.pendingBlobs

@[simp] theorem delivered_start : start.delivered = [] := rfl

@[simp] theorem delivered_push (s : Collected) (e : ID × Bytes) :
    (s.push e).delivered = s.delivered ++ [e] := by
  unfold push
  split <;> simp [delivered]

@[simp] theorem blobAcc_push (s : Collected) (e : ID × Bytes) : (s.push e).blobAcc = [] := by
  unfold push
  split <;> rfl

theorem flatten_batches (s : Collected) : s.batches.flatten = s.delivered := by
  unfold batches delivered
  split
  · rename_i hnil
    rw [hnil, List.append_nil]
  · rw [List.flatten_append, List.flatten_singleton]

end Collected

section Chunks

variable {c : Nat} {data : Bytes} {stop : Nat}

theorem lt_numChunks (hc : 0 < c) {i : Nat} : i < numChunks c stop ↔ i * c < stop := by
  rw [numChunks, Nat.lt_iff_add_one_le, Nat.le_div_iff_mul_le hc, Nat.succ_mul]
  omega

/-- The chunks from a number on. -/
def chunksFrom (c : Nat) (data : Bytes) (stop i : Nat) : List (Nat × Bytes) :=
  ((List.range (numChunks c stop)).drop i).map (readChunk c data stop)

theorem chunksFrom_zero : chunksFrom c data stop 0 = chunks c data stop := by
  rw [chunksFrom, List.drop_zero, chunks]

theorem chunksFrom_of_lt {i : Nat} (h : i < numChunks c stop) :
    chunksFrom c data stop i = readChunk c data stop i :: chunksFrom c data stop (i + 1) := by
  have hlen : i < (List.range (numChunks c stop)).length := by rwa [List.length_range]
  rw [chunksFrom, chunksFrom, List.drop_eq_getElem_cons hlen, List.map_cons, List.getElem_range]

theorem chunksFrom_of_le {i : Nat} (h : numChunks c stop ≤ i) : chunksFrom c data stop i = [] := by
  have hlen : (List.range (numChunks c stop)).length ≤ i := by rwa [List.length_range]
  rw [chunksFrom, List.drop_eq_nil_of_le hlen, List.map_nil]

/-- The end of a chunk. -/
def chunkStop (c : Nat) (data : Bytes) (stop i : Nat) : Nat :=
  max (i * c) (min (i * c + c) (min stop data.length))

/-- A chunk is the slice of the file up to its end. -/
theorem readChunk_snd (hc : 0 < c) {i : Nat} (h : i < numChunks c stop) :
    (readChunk c data stop i).2 = slice data (i * c) (chunkStop c data stop i) := by
  have hlt := (lt_numChunks hc).mp h
  have hne : min (stop - i * c) c ≠ 0 := by omega
  unfold readChunk readRange slice chunkStop
  rw [if_neg hne, List.take_eq_take_iff, List.length_drop]
  omega

theorem chunkEnd_eq (hc : 0 < c) {i : Nat} (h : i < numChunks c stop) :
    (readChunk c data stop i).1 + (readChunk c data stop i).2.length = chunkStop c data stop i := by
  rw [readChunk_snd hc h, length_slice]
  unfold readChunk chunkStop
  dsimp only
  omega

/-! ### One blob -/

section Blob

variable {k : Nat × Bytes} {ks : List (Nat × Bytes)} {d : PackedBlobDescriptor}
  {rest : List PackedBlobDescriptor} {s : Collected} {i : Nat}

theorem collectBlobs_nil (ks : List (Nat × Bytes)) (s : Collected) :
    collectBlobs ks ([], s) = ([], s) := by
  induction ks with
  | nil => rfl
  | cons k ks ih => exact ih

/-- The chunk ends before the blob starts. -/
theorem collectBlobs_skip (h : k.1 + k.2.length ≤ d.offset) :
    collectBlobs (k :: ks) (d :: rest, s) = collectBlobs ks (d :: rest, s) := by
  simp only [collectBlobs, List.foldl_cons, consumeChunk, if_pos h]

/-- The whole blob is in the chunk. -/
theorem collectBlobs_whole (h : d.offset < k.1 + k.2.length)
    (hwhole : s.blobAcc = [] ∧ k.1 ≤ d.offset ∧ d.offset + d.length ≤ k.1 + k.2.length) :
    collectBlobs (k :: ks) (d :: rest, s) = collectBlobs (k :: ks)
      (rest, s.push (d.id, slice k.2 (d.offset - k.1) (d.offset + d.length - k.1))) := by
  simp only [collectBlobs, List.foldl_cons]
  rw [consumeChunk]
  simp only [if_neg (Nat.not_le.mpr h), if_pos hwhole]

/-- The blob ends in the chunk. -/
theorem collectBlobs_complete (h : d.offset < k.1 + k.2.length)
    (hpart : ¬ (s.blobAcc = [] ∧ k.1 ≤ d.offset ∧ d.offset + d.length ≤ k.1 + k.2.length))
    (hlen : (accumulate k d s.blobAcc).length = d.length) :
    collectBlobs (k :: ks) (d :: rest, s) = collectBlobs (k :: ks)
      (rest, s.push (d.id, accumulate k d s.blobAcc)) := by
  simp only [collectBlobs, List.foldl_cons]
  rw [consumeChunk]
  simp only [if_neg (Nat.not_le.mpr h), if_neg hpart, if_pos hlen]

/-- The blob goes on in the next chunk. -/
theorem collectBlobs_part (h : d.offset < k.1 + k.2.length)
    (hpart : ¬ (s.blobAcc = [] ∧ k.1 ≤ d.offset ∧ d.offset + d.length ≤ k.1 + k.2.length))
    (hlen : (accumulate k d s.blobAcc).length ≠ d.length) :
    collectBlobs (k :: ks) (d :: rest, s) = collectBlobs ks
      (d :: rest, { s with blobAcc := accumulate k d s.blobAcc }) := by
  simp only [collectBlobs, List.foldl_cons]
  rw [consumeChunk]
  simp only [if_neg (Nat.not_le.mpr h), if_neg hpart, if_neg hlen]

/-- The number of bytes that a chunk adds. -/
theorem length_accumulate (hc : 0 < c) (hi : i < numChunks c stop) (acc : Bytes) :
    (accumulate (readChunk c data stop i) d acc).length =
      acc.length +
        (min (d.offset + d.length) (chunkStop c data stop i) - max d.offset (i * c)) := by
  have hstart : (readChunk c data stop i).1 = i * c := rfl
  unfold accumulate
  dsimp only
  rw [chunkEnd_eq hc hi, readChunk_snd hc hi, hstart]
  split
  · rename_i hlt
    have hbehind : i * c < chunkStop c data stop i :=
      (le_max_right _ _).trans_lt (hlt.trans_le (min_le_right _ _))
    have hend : chunkStop c data stop i ≤ data.length := by
      rcases le_max_iff.mp (le_of_eq (chunkStop.eq_1 c data stop i)) with hle | hle
      · exact absurd hbehind (Nat.not_lt.mpr hle)
      · exact hle.trans ((min_le_right _ _).trans (min_le_right _ _))
    rw [List.length_append, length_slice, length_slice, min_eq_left hend,
      min_eq_left (Nat.sub_le_sub_right (min_le_right _ _) _),
      Nat.sub_sub_sub_cancel_right (le_max_right _ _)]
  · rename_i hge
    rw [Nat.sub_eq_zero_of_le (Nat.not_lt.mp hge), Nat.add_zero]

/-- A chunk that has bytes behind `o` does not end behind the part of the file that is read. -/
theorem le_of_chunkStop {o e : Nat} (hskip : o < chunkStop c data stop i) (hlo : i * c ≤ o)
    (hhi : e ≤ chunkStop c data stop i) : e ≤ min stop data.length := by
  rcases lt_max_iff.mp hskip with hlt | hlt
  · exact absurd hlo (Nat.not_le.mpr hlt)
  · rw [chunkStop, max_eq_right (hlo.trans hlt.le)] at hhi
    exact hhi.trans (min_le_right _ _)

/-- What a chunk from `x` on adds to the bytes of a blob and what is left after it are together not
more than what was left before it. -/
theorem left_after_chunk {o e m x n len : Nat} (hskip : o < max x (min (x + c) m))
    (h : n + (min e m - max o x) < len) :
    n + (min e (max x (min (x + c) m)) - max o x) + (min e m - max o (x + c)) < len := by
  rcases le_total (x + c) m with hle | hle
  · rw [min_eq_left hle, max_eq_right (Nat.le_add_right x c)] at hskip ⊢
    rw [max_eq_right hskip.le]
    omega
  · have hzero : min e m - max o (x + c) = 0 :=
      Nat.sub_eq_zero_of_le ((min_le_right e m).trans (hle.trans (le_max_right o _)))
    rw [min_eq_right hle] at hskip ⊢
    rw [hzero, Nat.add_zero]
    omega

/-- A blob for which too few bytes are left is never collected, nor is any blob behind it. -/
theorem delivered_of_short (hc : 0 < c) (hpos : 0 < d.length)
    (hshort : s.blobAcc.length +
      (min (d.offset + d.length) (min stop data.length) - max d.offset (i * c)) <
        d.length) :
    (collectBlobs (chunksFrom c data stop i) (d :: rest, s)).2.delivered = s.delivered := by
  -- each chunk takes away from the bytes that are left what it adds to the accumulator
  induction hn : numChunks c stop - i generalizing i s with
  | zero =>
    rw [chunksFrom_of_le (by omega)]
    rfl
  | succ n ih =>
    have hi : i < numChunks c stop := by omega
    have hleft : numChunks c stop - (i + 1) = n := by
      rw [Nat.sub_add_eq, hn]
      rfl
    have hsucc : (i + 1) * c = i * c + c := Nat.succ_mul _ _
    have hlenacc := @length_accumulate c data stop d i hc hi s.blobAcc
    have hstart : (readChunk c data stop i).1 = i * c := rfl
    rw [chunksFrom_of_lt hi]
    by_cases hskip : chunkStop c data stop i ≤ d.offset
    · rw [collectBlobs_skip (by rwa [chunkEnd_eq hc hi])]
      refine ih ?_ hleft
      have hmono : max d.offset (i * c) ≤ max d.offset (i * c + c) :=
        max_le_max_left _ (Nat.le_add_right _ _)
      rw [hsucc]
      exact (Nat.add_le_add_left (Nat.sub_le_sub_left hmono _) _).trans_lt hshort
    · have hpart : ¬ (s.blobAcc = [] ∧ (readChunk c data stop i).1 ≤ d.offset ∧
          d.offset + d.length ≤
            (readChunk c data stop i).1 + (readChunk c data stop i).2.length) := by
        rw [chunkEnd_eq hc hi, hstart]
        rintro ⟨hnil, hlo, hhi⟩
        have hm := le_of_chunkStop (Nat.not_le.mp hskip) hlo hhi
        rw [hnil, List.length_nil, min_eq_left hm, max_eq_left hlo] at hshort
        omega
      have hcount : (accumulate (readChunk c data stop i) d s.blobAcc).length +
          (min (d.offset + d.length) (min stop data.length) -
            max d.offset ((i + 1) * c)) < d.length := by
        rw [hlenacc, hsucc]
        exact left_after_chunk (Nat.not_le.mp hskip) hshort
      have hless : (accumulate (readChunk c data stop i) d s.blobAcc).length < d.length :=
        (Nat.le_add_right _ _).trans_lt hcount
      rw [collectBlobs_part (by rw [chunkEnd_eq hc hi]; exact Nat.not_le.mp hskip) hpart hless.ne]
      exact ih (s := { s with blobAcc := accumulate (readChunk c data stop i) d s.blobAcc })
        hcount hleft

/-- The accumulator has the bytes of the blob up to the end of the chunk. -/
theorem accumulate_slice (hc : 0 < c) (hi : i < numChunks c stop)
    (hend : d.offset + d.length ≤ min stop data.length)
    (hless : min (i * c) (min stop data.length) < d.offset + d.length)
    (hskip : d.offset < chunkStop c data stop i) (hpos : 0 < d.length) :
    accumulate (readChunk c data stop i) d
        (slice data d.offset (min (i * c) (min stop data.length))) =
      slice data d.offset (min (d.offset + d.length) (chunkStop c data stop i)) := by
  have hstart : (readChunk c data stop i).1 = i * c := rfl
  have hstop : chunkStop c data stop i =
      max (i * c) (min (i * c + c) (min stop data.length)) := rfl
  unfold accumulate
  dsimp only
  rw [chunkEnd_eq hc hi, hstart, if_pos (by omega), readChunk_snd hc hi, slice_slice (by omega)]
  have hlo : i * c + (max d.offset (i * c) - i * c) = max d.offset (i * c) := by omega
  have hhi : i * c + (min (d.offset + d.length) (chunkStop c data stop i) - i * c) =
      min (d.offset + d.length) (chunkStop c data stop i) := by omega
  rw [hlo, hhi]
  by_cases hbefore : d.offset ≤ i * c
  · rw [max_eq_right hbefore, min_eq_left (by omega), slice_append_slice hbefore (by omega)]
  · rw [max_eq_left (by omega), slice_eq_nil (by omega), List.nil_append]

/-- A blob with bytes that lies in the part of the file that is read is collected with its bytes, in
the chunk that it ends in. -/
theorem collectBlobs_blob (hc : 0 < c) (hpos : 0 < d.length)
    (hend : d.offset + d.length ≤ min stop data.length)
    (hless : min (i * c) (min stop data.length) < d.offset + d.length)
    (hacc : s.blobAcc = slice data d.offset (min (i * c) (min stop data.length))) :
    collectBlobs (chunksFrom c data stop i) (d :: rest, s) =
      collectBlobs (chunksFrom c data stop ((d.offset + d.length - 1) / c))
        (rest, s.push (blobAt data d)) := by
  induction hn : numChunks c stop - i generalizing i s with
  | zero =>
    have hle : stop ≤ i * c := by
      have := mt (lt_numChunks hc).mpr (show ¬ i < numChunks c stop by omega)
      omega
    omega
  | succ n ih =>
    have hi : i < numChunks c stop := by omega
    have hsucc : (i + 1) * c = i * c + c := Nat.succ_mul _ _
    have hlt := (lt_numChunks hc).mp hi
    have hstart : (readChunk c data stop i).1 = i * c := rfl
    have hstop : chunkStop c data stop i =
        max (i * c) (min (i * c + c) (min stop data.length)) := rfl
    rw [chunksFrom_of_lt hi]
    by_cases hskip : chunkStop c data stop i ≤ d.offset
    · rw [collectBlobs_skip (by rwa [chunkEnd_eq hc hi])]
      refine ih (by omega) ?_ (by omega)
      rw [hacc, slice_eq_nil (by omega), slice_eq_nil (by omega)]
    · have hoff : d.offset < (readChunk c data stop i).1 + (readChunk c data stop i).2.length := by
        rw [chunkEnd_eq hc hi]
        omega
      by_cases hwhole : s.blobAcc = [] ∧ (readChunk c data stop i).1 ≤ d.offset ∧
          d.offset + d.length ≤ (readChunk c data stop i).1 + (readChunk c data stop i).2.length
      · have hbounds := hwhole.2
        rw [chunkEnd_eq hc hi, hstart] at hbounds
        have hblob : slice (readChunk c data stop i).2 (d.offset - i * c)
            (d.offset + d.length - i * c) = slice data d.offset (d.offset + d.length) := by
          rw [readChunk_snd hc hi, slice_slice (by omega)]
          congr 1 <;> omega
        rw [collectBlobs_whole hoff hwhole, hstart, hblob, ← chunksFrom_of_lt hi,
          Nat.div_eq_of_lt_le (k := i) (by omega) (by omega)]
        rfl
      · have hslice := accumulate_slice (d := d) hc hi hend hless (by omega) hpos
        rw [← hacc] at hslice
        have hlen : (accumulate (readChunk c data stop i) d s.blobAcc).length =
            min (d.offset + d.length) (chunkStop c data stop i) - d.offset := by
          rw [hslice, length_slice]
          omega
        by_cases hcomplete : d.offset + d.length ≤ chunkStop c data stop i
        · rw [collectBlobs_complete hoff hwhole (by omega), ← chunksFrom_of_lt hi, hslice,
            min_eq_left hcomplete, Nat.div_eq_of_lt_le (k := i) (by omega) (by omega)]
          rfl
        · rw [collectBlobs_part hoff hwhole (by omega)]
          refine ih (s := { s with blobAcc := accumulate (readChunk c data stop i) d s.blobAcc })
            (by omega) ?_ (by omega)
          have hnext : min (d.offset + d.length) (chunkStop c data stop i) =
              min ((i + 1) * c) (min stop data.length) := by omega
          rw [hslice, hnext]

/-- An empty blob is collected in the first chunk that ends behind it, if there is one. -/
theorem collectBlobs_empty (hc : 0 < c) (hlen : d.length = 0) (hacc : s.blobAcc = []) :
    (∃ j, i ≤ j ∧ j < numChunks c stop ∧ d.offset < chunkStop c data stop j ∧
      (i < j → chunkStop c data stop (j - 1) ≤ d.offset) ∧
      collectBlobs (chunksFrom c data stop i) (d :: rest, s) =
        collectBlobs (chunksFrom c data stop j) (rest, s.push (d.id, []))) ∨
    (∀ j, i ≤ j → j < numChunks c stop → chunkStop c data stop j ≤ d.offset) ∧
      (collectBlobs (chunksFrom c data stop i) (d :: rest, s)).2.delivered = s.delivered := by
  induction hn : numChunks c stop - i generalizing i with
  | zero =>
    refine Or.inr ⟨fun j hj hlt => (by omega), ?_⟩
    rw [chunksFrom_of_le (by omega)]
    rfl
  | succ n ih =>
    have hi : i < numChunks c stop := by omega
    have hstart : (readChunk c data stop i).1 = i * c := rfl
    by_cases hskip : chunkStop c data stop i ≤ d.offset
    · rw [chunksFrom_of_lt hi, collectBlobs_skip (by rwa [chunkEnd_eq hc hi])]
      rcases ih (i := i + 1) (by omega) with ⟨j, hij, hj, hoff, hprev, heq⟩ | ⟨hall, heq⟩
      · refine Or.inl ⟨j, by omega, hj, hoff, fun _ => ?_, heq⟩
        rcases Nat.lt_or_ge (i + 1) j with hlt | hge
        · exact hprev hlt
        · rwa [show j - 1 = i by omega]
      · refine Or.inr ⟨fun j hij hj => ?_, heq⟩
        rcases Nat.eq_or_lt_of_le hij with rfl | hlt
        · exact hskip
        · exact hall j hlt hj
    · refine Or.inl ⟨i, le_rfl, hi, by omega, fun hlt => absurd hlt (lt_irrefl i), ?_⟩
      have hoff : d.offset < (readChunk c data stop i).1 + (readChunk c data stop i).2.length := by
        rw [chunkEnd_eq hc hi]
        omega
      rw [chunksFrom_of_lt hi]
      by_cases hwhole : s.blobAcc = [] ∧ (readChunk c data stop i).1 ≤ d.offset ∧
          d.offset + d.length ≤ (readChunk c data stop i).1 + (readChunk c data stop i).2.length
      · rw [collectBlobs_whole hoff hwhole, slice_eq_nil (by omega)]
      · have hnil : accumulate (readChunk c data stop i) d s.blobAcc = [] := by
          unfold accumulate
          dsimp only
          rw [if_neg (by omega), hacc]
        rw [collectBlobs_complete hoff hwhole (by rw [hnil, hlen]; rfl), hnil]

end Blob

/-! ### All blobs -/

/-- The chunks end behind the next blob: the blobs with bytes are lost, and only the empty ones
before them are found. -/
theorem delivered_late (hc : 0 < c) {i offset : Nat} (hi : i < numChunks c stop)
    {ds : List PackedBlobDescriptor} (hds : Contiguous offset ds) (hoffset : offset < 2 ^ 32)
    (hlate : offset < i * c) (s : Collected) (hacc : s.blobAcc = []) :
    (collectBlobs (chunksFrom c data stop i) (ds, s)).2.delivered =
      s.delivered ++ (ds.takeWhile fun d => d.length = 0).map (blobAt data) := by
  induction ds generalizing s with
  | nil =>
    rw [collectBlobs_nil]
    simp
  | cons d ds ih =>
    obtain ⟨hoff, -, hrest⟩ := hds
    subst hoff
    have hstop : chunkStop c data stop i =
        max (i * c) (min (i * c + c) (min stop data.length)) := rfl
    by_cases hzero : d.length = 0
    · rcases @collectBlobs_empty c data stop d ds s i hc hzero hacc
        with ⟨j, hij, -, -, hprev, heq⟩ | ⟨hall, -⟩
      · have hji : j = i := by
          by_contra hne
          have hmono : i * c ≤ (j - 1) * c := Nat.mul_le_mul_right _ (by omega)
          have hprev' := hprev (by omega)
          unfold chunkStop at hprev'
          omega
        subst hji
        rw [hzero, Nat.add_zero, Nat.mod_eq_of_lt hoffset] at hrest
        rw [heq, ih hrest _ (Collected.blobAcc_push _ _), List.takeWhile_cons_of_pos (by simpa),
          Collected.delivered_push, List.map_cons, blobAt, slice_eq_nil (by omega),
          List.append_assoc, List.singleton_append]
      · have := hall i le_rfl hi
        omega
    · rw [List.takeWhile_cons_of_neg (by simpa), List.map_nil, List.append_nil]
      refine delivered_of_short hc (by omega) ?_
      rw [hacc, List.length_nil]
      omega

/-- At the end of the part of the file that is read only empty blobs are found. -/
theorem streamed_eq_takeWhile {readEnd reach pos : Nat} (hpos : readEnd ≤ pos) (hreach : pos < reach)
    (ds : List PackedBlobDescriptor) :
    streamed readEnd reach pos ds = ds.takeWhile fun d => d.length = 0 := by
  induction ds with
  | nil => rfl
  | cons d ds ih =>
    by_cases hzero : d.length = 0
    · rw [streamed, if_pos hzero, if_pos hreach, ih, List.takeWhile_cons_of_pos (by simpa)]
    · rw [streamed, if_neg hzero, if_pos (by omega), List.takeWhile_cons_of_neg (by simpa)]

/-- No chunk ends behind the last one, and the last one does. -/
theorem chunkStop_le_lastChunkEnd (hc : 0 < c) {j : Nat} (hj : j < numChunks c stop) :
    chunkStop c data stop j ≤ lastChunkEnd c data stop := by
  have hlt := (lt_numChunks hc).mp hj
  have hle : j * c ≤ (stop - 1) / c * c :=
    Nat.mul_le_mul_right _ ((Nat.le_div_iff_mul_le hc).mpr (by omega))
  unfold chunkStop lastChunkEnd
  omega

theorem exists_chunkStop_eq (hc : 0 < c) (hstop : 0 < stop) :
    (stop - 1) / c < numChunks c stop ∧
      chunkStop c data stop ((stop - 1) / c) = lastChunkEnd c data stop := by
  have hlt := Nat.div_mul_le_self (stop - 1) c
  have hup := Nat.lt_div_mul_add (a := stop - 1) hc
  refine ⟨(lt_numChunks hc).mpr (by omega), ?_⟩
  unfold chunkStop lastChunkEnd
  omega

/-- **The loop over the chunks collects the blobs of `streamed` with their bytes.** -/
theorem delivered_collectBlobs (hc : 0 < c) (hsmall : c < 2 ^ 32) {i pos : Nat}
    {ds : List PackedBlobDescriptor} (hds : Contiguous pos ds) (hpos : pos < 2 ^ 32)
    (hi : i * c ≤ pos) (s : Collected) (hacc : s.blobAcc = []) :
    (collectBlobs (chunksFrom c data stop i) (ds, s)).2.delivered = s.delivered ++
      (streamed (min stop data.length) (lastChunkEnd c data stop) pos ds).map (blobAt data) := by
  induction ds generalizing i pos s with
  | nil =>
    rw [collectBlobs_nil]
    simp [streamed]
  | cons d ds ih =>
    obtain ⟨hoff, hlen, hrest⟩ := hds
    subst hoff
    by_cases hzero : d.length = 0
    · rw [hzero, Nat.add_zero, Nat.mod_eq_of_lt hpos] at hrest
      have hblob : blobAt data d = (d.id, []) := by rw [blobAt, slice_eq_nil (by omega)]
      rw [streamed, if_pos hzero]
      rcases @collectBlobs_empty c data stop d ds s i hc hzero hacc
        with ⟨j, hij, hj, hbefore, hprev, heq⟩ | ⟨hall, heq⟩
      · have hreach := hbefore.trans_le (chunkStop_le_lastChunkEnd hc hj)
        rw [if_pos hreach, heq]
        by_cases hjc : j * c ≤ d.offset
        · rw [ih hrest hpos hjc _ (Collected.blobAcc_push _ _), Collected.delivered_push,
            List.map_cons, hblob, List.append_assoc, List.singleton_append]
        · -- the chunk starts behind the blob, so the file has ended before
          have hlt : i < j := by
            rcases Nat.eq_or_lt_of_le hij with rfl | hlt
            · exact absurd hi hjc
            · exact hlt
          have hprev' := hprev hlt
          have hsucc : (j - 1) * c + c = j * c := by
            rw [← Nat.succ_mul, Nat.succ_eq_add_one, Nat.sub_add_cancel (by omega)]
          have hM : min stop data.length ≤ d.offset := by
            unfold chunkStop at hprev'
            omega
          rw [delivered_late hc hj hrest hpos (by omega) _ (Collected.blobAcc_push _ _),
            streamed_eq_takeWhile hM hreach, Collected.delivered_push, List.map_cons, hblob,
            List.append_assoc, List.singleton_append]
      · have hreach : ¬ d.offset < lastChunkEnd c data stop := by
          intro hlt
          have hstop : 0 < stop := by
            by_contra hnot
            have hz : stop = 0 := by omega
            rw [lastChunkEnd, hz] at hlt
            simp at hlt
          obtain ⟨hlast, heq'⟩ := @exists_chunkStop_eq c data stop hc hstop
          have hsub : i * c ≤ stop - 1 := by
            have := Nat.div_mul_le_self (stop - 1) c
            unfold lastChunkEnd at hlt
            omega
          have := hall _ ((Nat.le_div_iff_mul_le hc).mpr hsub) hlast
          omega
        rw [if_neg hreach, heq, List.map_nil, List.append_nil]
    · rw [streamed, if_neg hzero]
      by_cases hend : min stop data.length < d.offset + d.length
      · rw [if_pos hend, List.map_nil, List.append_nil]
        refine delivered_of_short hc (by omega) ?_
        rw [hacc, List.length_nil]
        omega
      · have hfirst : s.blobAcc = slice data d.offset (min (i * c) (min stop data.length)) := by
          rw [hacc, slice_eq_nil (by omega)]
        rw [if_neg hend, collectBlobs_blob hc (by omega) (by omega) (by omega) hfirst]
        have hlo := Nat.div_mul_le_self (d.offset + d.length - 1) c
        have hup := Nat.lt_div_mul_add (a := d.offset + d.length - 1) hc
        by_cases hfits : d.offset + d.length < 2 ^ 32
        · rw [Nat.mod_eq_of_lt hfits] at hrest
          rw [if_pos hfits, ih hrest hfits (by omega) _ (Collected.blobAcc_push _ _),
            Collected.delivered_push, List.map_cons, List.append_assoc, List.singleton_append]
        · -- the next offset has wrapped around and lies before the chunk
          rw [if_neg hfits, delivered_late hc ((lt_numChunks hc).mpr (by omega)) hrest
            (Nat.mod_lt _ (by norm_num)) (by omega) _ (Collected.blobAcc_push _ _),
            Collected.delivered_push, List.map_cons, List.append_assoc, List.singleton_append]

/-- The chunks together are the file up to the end of the data. -/
theorem flatten_chunksFrom (hc : 0 < c) (i : Nat) :
    ((chunksFrom c data stop i).map Prod.snd).flatten = slice data (i * c) stop := by
  induction hn : numChunks c stop - i generalizing i with
  | zero =>
    have hle : ¬ i * c < stop := mt (lt_numChunks hc).mpr (by omega)
    rw [chunksFrom_of_le (by omega), List.map_nil, List.flatten_nil, slice_eq_nil (by omega)]
  | succ n ih =>
    have hi : i < numChunks c stop := by omega
    have hlt := (lt_numChunks hc).mp hi
    have hsucc : (i + 1) * c = i * c + c := Nat.succ_mul _ _
    have hchunk : (readChunk c data stop i).2 = slice data (i * c) (min stop (i * c + c)) := by
      have hlen : min stop (i * c + c) - i * c = min (stop - i * c) c := by omega
      rw [readChunk, readRange, slice, hlen, if_neg (by omega)]
    rw [chunksFrom_of_lt hi, List.map_cons, List.flatten_cons, ih (i + 1) (by omega), hchunk, hsucc]
    rcases Nat.le_total stop (i * c + c) with hle | hge
    · rw [min_eq_left hle, slice_eq_nil hle, List.append_nil]
    · rw [min_eq_right hge, slice_append_slice (by omega) hge]

theorem flatten_chunks (hc : 0 < c) :
    ((chunks c data stop).map Prod.snd).flatten = data.take stop := by
  rw [← chunksFrom_zero, flatten_chunksFrom hc, Nat.zero_mul, slice_zero]

end Chunks

/-! ## The blobs of the footer -/

theorem contiguous_parseEntries {fuel offset : Nat} {bs : Bytes} {ds : List PackedBlobDescriptor}
    (h : Packer.parseEntries fuel offset bs = some ds) : Contiguous offset ds := by
  induction fuel generalizing offset bs ds with
  | zero =>
    cases bs with
    | nil =>
      cases h
      trivial
    | cons b bs => cases h
  | succ fuel ih =>
    cases bs with
    | nil =>
      cases h
      trivial
    | cons b bs =>
      rw [Packer.parseEntries] at h
      dsimp only at h
      split at h
      · cases h
      · obtain ⟨blobType, -, h⟩ := Option.bind_eq_some_iff.mp h
        split at h
        · exact ih h
        · obtain ⟨ds', hds', rfl⟩ := Option.map_eq_some_iff.mp h
          refine ⟨rfl, ?_, ih hds'⟩
          have hlt := ofLittleEndian_lt (((b :: bs).drop 33).take 4)
          have hlen : (((b :: bs).drop 33).take 4).length ≤ 4 := by
            rw [List.length_take]
            omega
          calc _ < 256 ^ (((b :: bs).drop 33).take 4).length := hlt
            _ ≤ 256 ^ 4 := Nat.pow_le_pow_right (by norm_num) hlen
            _ = 2 ^ 32 := by norm_num

theorem contiguous_parseFooter {storage : SecureStorage} {data : Bytes}
    {ds : List PackedBlobDescriptor} (h : Packer.parseFooter storage data = some ds) :
    Contiguous 0 ds := by
  unfold Packer.parseFooter at h
  split at h
  · cases h
  · dsimp only at h
    split at h
    · cases h
    · obtain ⟨info, -, h⟩ := Option.bind_eq_some_iff.mp h
      exact contiguous_parseEntries h

section Streamed

variable {readEnd reach : Nat}

theorem streamed_isPrefix (pos : Nat) (ds : List PackedBlobDescriptor) :
    streamed readEnd reach pos ds <+: ds := by
  induction ds generalizing pos with
  | nil => exact List.prefix_rfl
  | cons d ds ih =>
    rw [streamed]
    split
    · split
      · exact List.prefix_cons_inj d |>.mpr (ih pos)
      · exact List.nil_prefix
    · split
      · exact List.nil_prefix
      · split
        · exact List.prefix_cons_inj d |>.mpr (ih _)
        · exact List.prefix_cons_inj d |>.mpr (List.takeWhile_prefix _)

/-- Empty blobs all lie where the first one does. -/
theorem offset_of_takeWhile {offset : Nat} (hoffset : offset < 2 ^ 32)
    {ds : List PackedBlobDescriptor} (hds : Contiguous offset ds) :
    ∀ d ∈ ds.takeWhile (fun d => d.length = 0), d.offset + d.length = offset := by
  induction ds with
  | nil => simp
  | cons d ds ih =>
    obtain ⟨hoff, -, hrest⟩ := hds
    by_cases hzero : d.length = 0
    · rw [hzero, Nat.add_zero, Nat.mod_eq_of_lt hoffset] at hrest
      rw [List.takeWhile_cons_of_pos (by simpa), List.forall_mem_cons]
      exact ⟨by omega, ih hrest⟩
    · rw [List.takeWhile_cons_of_neg (by simpa)]
      simp

/-- The blobs that are found lie in the file. -/
theorem streamed_within {size pos : Nat} {ds : List PackedBlobDescriptor} (hds : Contiguous pos ds)
    (hpos : pos < 2 ^ 32) (hread : readEnd ≤ size) (hle : pos ≤ size) :
    ∀ d ∈ streamed readEnd reach pos ds, d.offset + d.length ≤ size := by
  induction ds generalizing pos with
  | nil => simp [streamed]
  | cons d ds ih =>
    obtain ⟨hoff, hlen, hrest⟩ := hds
    rw [streamed]
    split
    · rename_i hzero
      rw [hzero, Nat.add_zero, Nat.mod_eq_of_lt hpos] at hrest
      split
      · rw [List.forall_mem_cons]
        exact ⟨by omega, ih hrest hpos hle⟩
      · simp
    · split
      · simp
      · split
        · rename_i hfits
          rw [Nat.mod_eq_of_lt hfits] at hrest
          rw [List.forall_mem_cons]
          exact ⟨by omega, ih hrest hfits (by omega)⟩
        · rw [List.forall_mem_cons]
          refine ⟨by omega, fun d' hd' => ?_⟩
          rw [offset_of_takeWhile (Nat.mod_lt _ (by norm_num)) hrest d' hd']
          exact (Nat.mod_le _ _).trans (by omega)

end Streamed

/-! ## The verdicts -/

/-- The same verdict on a pack, whatever the order of the corrupt blobs. -/
structure PackStats.SameVerdict (a b : PackStats) : Prop where
  bitRot : a.bitRot = b.bitRot
  corrupt : ∀ id, id ∈ a.corruptBlobs ↔ id ∈ b.corruptBlobs
  verified : a.verifiedBlobs = b.verifiedBlobs
  dangling : a.dangling = b.dangling

section Verdict

variable (env : Env)

/-- The blob decodes and its plaintext has the ID. -/
def goodBlob (e : ID × Bytes) : Bool :=
  (env.storage.decode e.2).any fun plaintext => env.fromContent plaintext = e.1

/-- The blob of the footer lies in the file and is good. -/
def goodAt (data : Bytes) (d : PackedBlobDescriptor) : Bool :=
  decide (d.offset + d.length ≤ data.length) && goodBlob env (blobAt data d)

/-- The blobs of the footer that the streaming verifier comes to. -/
def streamedBlobs (data : Bytes) (packHeader : List PackedBlobDescriptor) :
    List PackedBlobDescriptor :=
  streamed (min (dataEnd packHeader) data.length)
    (lastChunkEnd chunkSize data (dataEnd packHeader)) 0 packHeader

/-- What the streaming verifier leaves out makes no difference. The bytes between the last blob and
the footer may go without a change to whether the hash is the ID of the pack, and the blobs that it
does not come to are corrupt, with IDs that it reports for other blobs. -/
def VerifiersAgree (data : Bytes) (packId : ID) : Prop :=
  ∀ packHeader, Packer.parseFooter env.storage data = some packHeader →
    (env.fromContent data = packId ↔
      env.fromContent (data.take (dataEnd packHeader) ++ footerRaw data) = packId) ∧
    ∀ d ∈ packHeader.drop (streamedBlobs data packHeader).length, goodAt env data d = false ∧
      ∃ d' ∈ streamedBlobs data packHeader, d'.id = d.id ∧ goodAt env data d' = false

variable {env}

theorem countBlob_eq (counts : BlobCounts) (e : ID × Bytes) :
    countBlob env counts e = if goodBlob env e then
      ⟨counts.verified + 1, counts.corrupt, counts.bytes + e.2.length⟩
    else ⟨counts.verified, counts.corrupt ++ [e.1], counts.bytes + e.2.length⟩ := by
  unfold countBlob goodBlob
  cases env.storage.decode e.2 with
  | none => rfl
  | some plaintext => by_cases heq : env.fromContent plaintext = e.1 <;> simp [heq]

theorem foldl_countBlob (batch : List (ID × Bytes)) (counts : BlobCounts) :
    (batch.foldl (countBlob env) counts).verified = counts.verified + batch.countP (goodBlob env) ∧
    (batch.foldl (countBlob env) counts).corrupt =
      counts.corrupt ++ (batch.filter fun e => !goodBlob env e).map Prod.fst := by
  induction batch generalizing counts with
  | nil => simp
  | cons e batch ih =>
    rw [List.foldl_cons, (ih _).1, (ih _).2, countBlob_eq]
    cases hgood : goodBlob env e with
    | false => simp [hgood]
    | true =>
      simp [hgood]
      omega

theorem foldl_countDescriptor (data : Bytes) (ds : List PackedBlobDescriptor) (counts : BlobCounts) :
    (ds.foldl (countDescriptor env data) counts).verified =
      counts.verified + ds.countP (goodAt env data) ∧
    (ds.foldl (countDescriptor env data) counts).corrupt =
      counts.corrupt ++ (ds.filter fun d => !goodAt env data d).map PackedBlobDescriptor.id := by
  induction ds generalizing counts with
  | nil => simp
  | cons d ds ih =>
    have hstep : countDescriptor env data counts d = if data.length < d.offset + d.length then
        ⟨counts.verified, counts.corrupt ++ [d.id], counts.bytes⟩
      else countBlob env counts (blobAt data d) := rfl
    rw [List.foldl_cons, (ih _).1, (ih _).2, hstep]
    by_cases hlen : data.length < d.offset + d.length
    · have hbad : goodAt env data d = false := by simp [goodAt, hlen]
      simp [hlen, hbad]
    · have hgood : goodAt env data d = goodBlob env (blobAt data d) := by
        simp [goodAt, Nat.le_of_not_lt hlen]
      rw [if_neg hlen, countBlob_eq, List.countP_cons, List.filter_cons, hgood]
      cases goodBlob env (blobAt data d) with
      | false => simp [blobAt]
      | true =>
        simp
        omega

theorem foldl_batchVerify (order : List (List (ID × Bytes))) (counts : BlobCounts) :
    ((order.map (batchVerify env)).foldl BlobCounts.add counts).verified =
      counts.verified + order.flatten.countP (goodBlob env) ∧
    ((order.map (batchVerify env)).foldl BlobCounts.add counts).corrupt =
      counts.corrupt ++ (order.flatten.filter fun e => !goodBlob env e).map Prod.fst := by
  induction order generalizing counts with
  | nil => simp
  | cons batch order ih =>
    obtain ⟨hverified, hcorrupt⟩ := @foldl_countBlob env batch .zero
    rw [List.map_cons, List.foldl_cons, (ih _).1, (ih _).2, BlobCounts.add, batchVerify, hverified,
      hcorrupt, List.flatten_cons, List.countP_append, List.filter_append, List.map_append]
    rw [BlobCounts.verified_zero, BlobCounts.corrupt_zero, Nat.zero_add, List.nil_append,
      Nat.add_assoc, List.append_assoc]
    exact ⟨rfl, rfl⟩

/-- The counts of the streaming verifier are those of the blobs that it comes to. -/
theorem counts_streaming {data : Bytes} {packHeader : List PackedBlobDescriptor}
    (hparse : Packer.parseFooter env.storage data = some packHeader)
    {order : List (List (ID × Bytes))}
    (horder : order.Perm (collectBlobs (chunks chunkSize data (dataEnd packHeader))
      (packHeader, .start)).2.batches) :
    ((order.map (batchVerify env)).foldl BlobCounts.add .zero).verified =
      (streamedBlobs data packHeader).countP (goodAt env data) ∧
    ∀ id, id ∈ ((order.map (batchVerify env)).foldl BlobCounts.add .zero).corrupt ↔
      ∃ d ∈ streamedBlobs data packHeader, d.id = id ∧ goodAt env data d = false := by
  have hcontiguous := contiguous_parseFooter hparse
  have hdelivered := @delivered_collectBlobs chunkSize data (dataEnd packHeader)
    chunkSize_pos chunkSize_lt 0 _ _ hcontiguous (by norm_num) (by omega) .start rfl
  rw [chunksFrom_zero, Collected.delivered_start, List.nil_append] at hdelivered
  have hperm := horder.flatten
  rw [Collected.flatten_batches, hdelivered] at hperm
  have hgood : ∀ d ∈ streamedBlobs data packHeader,
      goodBlob env (blobAt data d) = goodAt env data d := by
    intro d hd
    have hle := streamed_within hcontiguous (by norm_num) (min_le_right _ _) (Nat.zero_le _) d hd
    simp [goodAt, hle]
  obtain ⟨hverified, hcorrupt⟩ := @foldl_batchVerify env order .zero
  refine ⟨?_, fun id => ?_⟩
  · rw [hverified, hperm.countP_eq, List.countP_map, BlobCounts.verified_zero, Nat.zero_add]
    exact List.countP_congr fun d hd => by rw [Function.comp_apply, hgood d hd]
  · rw [hcorrupt, BlobCounts.corrupt_zero, List.nil_append, List.mem_map]
    constructor
    · rintro ⟨e, he, rfl⟩
      obtain ⟨hmem, hbad⟩ := List.mem_filter.mp he
      obtain ⟨d, hd, rfl⟩ := List.mem_map.mp (hperm.mem_iff.mp hmem)
      exact ⟨d, hd, rfl, by simpa [hgood d hd] using hbad⟩
    · rintro ⟨d, hd, rfl, hbad⟩
      refine ⟨blobAt data d, List.mem_filter.mpr ⟨?_, by simp [hgood d hd, hbad]⟩, rfl⟩
      exact hperm.mem_iff.mpr (List.mem_map_of_mem hd)

/-- Dropping the rest of a list changes neither a count nor the IDs of what fails the test if and
only if all of the rest fails it with IDs that are there already. -/
theorem same_counts_iff {found rest : List PackedBlobDescriptor} (good : PackedBlobDescriptor → Bool) :
    ((found ++ rest).countP good = found.countP good ∧
      ∀ id, id ∈ ((found ++ rest).filter fun d => !good d).map PackedBlobDescriptor.id ↔
        ∃ d ∈ found, d.id = id ∧ good d = false) ↔
    ∀ d ∈ rest, good d = false ∧ ∃ d' ∈ found, d'.id = d.id ∧ good d' = false := by
  constructor
  · rintro ⟨hcount, hids⟩ d hd
    rw [List.countP_append] at hcount
    have hbad : good d = false := by
      have hzero : rest.countP good = 0 := by omega
      simpa using List.countP_eq_zero.mp hzero d hd
    refine ⟨hbad, (hids d.id).mp (List.mem_map_of_mem (List.mem_filter.mpr ⟨?_, by simp [hbad]⟩))⟩
    exact List.mem_append_right _ hd
  · intro h
    have hzero : rest.countP good = 0 :=
      List.countP_eq_zero.mpr fun d hd => by simp [(h d hd).1]
    refine ⟨by rw [List.countP_append, hzero, Nat.add_zero], fun id => ?_⟩
    rw [List.mem_map]
    constructor
    · rintro ⟨d, hd, rfl⟩
      obtain ⟨hmem, hbad⟩ := List.mem_filter.mp hd
      rcases List.mem_append.mp hmem with hfound | hrest
      · exact ⟨d, hfound, rfl, by simpa using hbad⟩
      · exact (h d hrest).2
    · rintro ⟨d, hd, rfl, hbad⟩
      exact ⟨d, List.mem_filter.mpr ⟨List.mem_append_left _ hd, by simp [hbad]⟩, rfl⟩

/-- **The two verifiers agree if and only if what the streaming one leaves out makes no
difference.** It returns a result for every file, and in whatever order the batches are verified,
that result is the verdict of the inline verifier exactly under this condition. -/
theorem verifiers_agree_iff (env : Env) (mi : MasterIndex) (data : Bytes) (packId : ID) :
    (∃ result, VerifiesStreaming env mi data packId result) ∧
    ∀ result, VerifiesStreaming env mi data packId result →
      (Option.Rel PackStats.SameVerdict (verifyPackInline env mi data packId) result ↔
        VerifiersAgree env data packId) := by
  unfold VerifiesStreaming verifyPackInline VerifiersAgree
  rw [Packer.parsePackFooter_eq_parseFooter]
  cases hparse : Packer.parseFooter env.storage data with
  | none =>
    refine ⟨⟨none, rfl⟩, ?_⟩
    rintro result rfl
    exact iff_of_true .none (fun packHeader h => by cases h)
  | some packHeader =>
    refine ⟨⟨_, _, List.Perm.refl _, rfl⟩, ?_⟩
    rintro result ⟨order, horder, rfl⟩
    obtain ⟨hverified, hcorrupt⟩ := counts_streaming hparse horder
    obtain ⟨hcount, hids⟩ := @foldl_countDescriptor env data packHeader .zero
    rw [BlobCounts.verified_zero, Nat.zero_add] at hcount
    rw [BlobCounts.corrupt_zero, List.nil_append] at hids
    have hsplit : streamedBlobs data packHeader ++
        packHeader.drop (streamedBlobs data packHeader).length = packHeader :=
      (List.prefix_iff_eq_append.mp (streamed_isPrefix 0 packHeader))
    have hcounts := @same_counts_iff (streamedBlobs data packHeader)
      (packHeader.drop (streamedBlobs data packHeader).length) (goodAt env data)
    rw [hsplit] at hcounts
    rw [Option.map_some, flatten_chunks chunkSize_pos]
    simp only [Option.rel_some_some, Option.some.injEq, forall_eq']
    rw [← hcounts]
    constructor
    · rintro ⟨hbit, hcor, hver, -⟩
      dsimp only at hbit hcor hver
      refine ⟨?_, ?_, fun id => ?_⟩
      · simpa using hbit
      · rw [← hcount, hver, hverified]
      · rw [← hids, hcor, hcorrupt]
    · rintro ⟨hbit, hver, hcor⟩
      refine ⟨?_, fun id => ?_, ?_, rfl⟩
      · simpa using hbit
      · rw [hids, hcor, hcorrupt]
      · rw [hcount, hver, hverified]

end Verdict

/-! ## A gap before the footer -/

/-- The footer is found behind whatever stands before it. -/
theorem footerRaw_append (pre : Bytes) {footer : Bytes} (hfits : footer.length < 2 ^ 32) :
    footerRaw (pre ++ footer ++ littleEndian 4 footer.length) =
      footer ++ littleEndian 4 footer.length := by
  have hlen : (pre ++ footer ++ littleEndian 4 footer.length).length =
      pre.length + footer.length + 4 := by
    rw [List.length_append, List.length_append, length_littleEndian]
  have htrailer : (pre ++ footer ++ littleEndian 4 footer.length).drop
      ((pre ++ footer ++ littleEndian 4 footer.length).length - 4) = littleEndian 4 footer.length := by
    rw [hlen, Nat.add_sub_cancel, List.drop_left' (by simp)]
  rw [footerRaw, htrailer, ofLittleEndian_littleEndian_mod, Nat.mod_eq_of_lt (by simpa using hfits),
    hlen, show pre.length + footer.length + 4 - (4 + footer.length) = pre.length by omega,
    List.append_assoc, List.drop_left]

/-- The hash of the concrete packs is their length. -/
def lengthEnv : Env := { sampleEnv with fromContent := fun bs => Fin.ofNat _ bs.length }

/-- A footer with one blob of two bytes. -/
def gapFooter : Bytes := 1 :: Packer.footerBytes [⟨1, .data, 0, 2, 1⟩]

/-- A pack into which 64 MiB got between its one blob and its footer. -/
def gapPack : Bytes :=
  [1, 7] ++ List.replicate chunkSize 0 ++ gapFooter ++ littleEndian 4 gapFooter.length

/-- The ID is that of the pack without the gap. The inline verifier reports bit rot, and the
streaming one does not. -/
theorem gap_hidden_from_streaming :
    chunkSize < gapPack.length ∧
    verifyPackInline lengthEnv .new gapPack 48 = some ⟨1, 1, [], 2, true⟩ ∧
    VerifiesStreaming lengthEnv .new gapPack 48 (some ⟨1, 1, [], 2, false⟩) := by
  have hfooter : gapFooter.length = 42 := rfl
  have hlen : gapPack.length = chunkSize + 48 := by
    rw [gapPack, List.length_append, List.length_append, List.length_append, List.length_replicate,
      length_littleEndian, hfooter]
    change 2 + chunkSize + 42 + 4 = chunkSize + 48
    omega
  have hparse : Packer.parseFooter lengthEnv.storage gapPack = some [⟨1, .data, 0, 2, 1⟩] := by
    rw [gapPack, Packer.parseFooter_of_fits _ (by rw [hfooter]; decide)]
    rfl
  have hraw : footerRaw gapPack = gapFooter ++ littleEndian 4 gapFooter.length := by
    rw [gapPack, footerRaw_append _ (by rw [hfooter]; decide)]
  have htake : gapPack.take 2 = [1, 7] := by
    rw [gapPack, List.append_assoc, List.append_assoc]
    generalize List.replicate chunkSize 0 ++ _ = rest
    rfl
  -- from here on only these facts about the pack count
  generalize gapPack = data at *
  have hslice : blobAt data ⟨1, .data, 0, 2, 1⟩ = (1, [1, 7]) := by
    rw [blobAt]
    dsimp only
    rw [Nat.zero_add, slice_zero, htake]
  have hcount : countBlob lengthEnv .zero (1, [1, 7]) = ⟨1, [], 2⟩ := rfl
  have hdangling : numDangling lengthEnv .new [⟨1, .data, 0, 2, 1⟩] = 1 := rfl
  have hchunk : chunkSize = 67108864 := rfl
  refine ⟨by omega, ?_, ?_⟩
  · have hin : ¬ data.length < 0 + 2 := by omega
    have hcounts : [(⟨1, .data, 0, 2, 1⟩ : PackedBlobDescriptor)].foldl
        (countDescriptor lengthEnv data) .zero = ⟨1, [], 2⟩ := by
      rw [List.foldl_cons, List.foldl_nil, countDescriptor, if_neg hin]
      exact (congrArg _ hslice).trans hcount
    have hhash : lengthEnv.fromContent data ≠ 48 := by
      change Fin.ofNat _ data.length ≠ _
      rw [hlen, hchunk]
      decide
    rw [verifyPackInline, hparse, Option.map_some]
    dsimp only
    rw [hcounts, hdangling, decide_eq_true hhash]
  · have hnum : numChunks chunkSize 2 = 1 := by
      rw [numChunks, hchunk]
    have hread : chunks chunkSize data 2 = [(0, [1, 7])] := by
      rw [chunks, hnum, List.range_one, List.map_singleton, readChunk, Nat.zero_mul, Nat.sub_zero,
        min_eq_left (by omega), readRange, if_neg (by omega), List.drop_zero, htake]
    have hcollect : (collectBlobs [(0, [1, 7])] ([⟨1, .data, 0, 2, 1⟩], .start)).2.batches =
        [[(1, [1, 7])]] := by
      rw [collectBlobs_whole (by decide) (by decide), collectBlobs_nil, Collected.push,
        if_neg (by rw [maxVerificationBatchSize]; decide)]
      rfl
    have hhash : lengthEnv.fromContent ([1, 7] ++ (gapFooter ++ littleEndian 4 gapFooter.length)) =
        48 := by decide
    have hend : dataEnd [⟨1, .data, 0, 2, 1⟩] = 2 := rfl
    rw [VerifiesStreaming, Packer.parsePackFooter_eq_parseFooter, hparse]
    dsimp only
    rw [hend, hread, hcollect, hraw, hdangling, List.map_singleton, List.flatten_singleton]
    refine ⟨_, List.Perm.refl _, ?_⟩
    rw [decide_eq_false (not_not_intro hhash)]
    rfl

end Mapache
