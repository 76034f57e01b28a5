import Mapache.Archiver.Processor

/-!
# The size of a stored file

The size of a node comes from the `stat` of the file, and its blobs come from a later read. In
between and while it is read, the file may grow, shrink or become unreadable. Here a file is what
the calls of `Read::read` return, one after the other, so that a file that changes is just a list of
results.

`process_item_sync` never compares the two: a node is stored with the size of its blobs exactly when
the run that last processed the file got just as many bytes from it as the `stat` said, and could
save them (`stored_size_iff`). `process_stdin_sync` does better, and stores the number of bytes that
it has read (`processStdinSync_size`).
-/

set_option autoImplicit false

namespace Mapache

open Lib

/-! ## Reading a file that changes -/

/-- The bytes that the reads return. -/
def readBytes (reads : List ReadResult) : Bytes :=
  reads.flatMap fun
    | .ok bytes => bytes
    | .interrupted | .error => []

/-- `Read::read_exact` for `n` more bytes, with the results of its reads. -/
inductive ReadExact : Nat → List ReadResult → Option Bytes → Prop where
  | done : ReadExact 0 [] (some [])
  | eof {n : Nat} : ReadExact (n + 1) [.ok []] none
  | error {n : Nat} : ReadExact (n + 1) [.error] none
  | interrupted {n : Nat} {reads : List ReadResult} {out : Option Bytes} :
      ReadExact (n + 1) reads out → ReadExact (n + 1) (.interrupted :: reads) out
  | bytes {n : Nat} {bytes : Bytes} {reads : List ReadResult} {out : Option Bytes} : bytes ≠ [] →
      ReadExact n reads out → ReadExact (bytes.length + n) (.ok bytes :: reads) (out.map (bytes ++ ·))

/-- The loop of `ChunkStream::next`, with the results of its reads: the buffer that it ends with,
and why. -/
inductive Fills (maxSize : Nat) : Bytes → List ReadResult → Bytes → Filled → Prop where
  | full {buffer : Bytes} : maxSize ≤ buffer.length → Fills maxSize buffer [] buffer .full
  | eof {buffer : Bytes} : buffer.length < maxSize → Fills maxSize buffer [.ok []] buffer .eof
  | error {buffer : Bytes} : buffer.length < maxSize → Fills maxSize buffer [.error] buffer .error
  | interrupted {buffer buffer' : Bytes} {reads : List ReadResult} {status : Filled} :
      buffer.length < maxSize → Fills maxSize buffer reads buffer' status →
      Fills maxSize buffer (.interrupted :: reads) buffer' status
  | bytes {buffer buffer' bytes : Bytes} {reads : List ReadResult} {status : Filled} : bytes ≠ [] →
      buffer.length + bytes.length ≤ maxSize → Fills maxSize (buffer ++ bytes) reads buffer' status →
      Fills maxSize buffer (.ok bytes :: reads) buffer' status

/-- What `ChunkStream::next` makes of its buffer: nothing, or a chunk and what is left. -/
def cutBuffer (c : Chunker) (status : Filled) (buffer : Bytes) : Option (Bytes × Bytes) :=
  if status = .eof ∧ buffer = [] then none
  else
    let cutPoint := c.cut (buffer.take (min buffer.length c.maxSize))
    if c.minSize ≤ buffer.length ∧ 0 < cutPoint then
      some (buffer.take cutPoint, buffer.drop cutPoint)
    else if status = .eof ∧ buffer ≠ [] then some (buffer, [])
    else none

/-- The chunks of a stream, with the results of its reads; `none` after an error. An end of the file
that is reported while there are bytes in the buffer is forgotten, and the next chunk reads again.
-/
inductive Chunked (c : Chunker) : Bytes → List ReadResult → Option (List Bytes) → Prop where
  | done {buffer buffer' : Bytes} {reads : List ReadResult} {status : Filled} :
      Fills c.maxSize buffer reads buffer' status → status ≠ .error →
      cutBuffer c status buffer' = none → Chunked c buffer reads (some [])
  | error {buffer buffer' : Bytes} {reads : List ReadResult} :
      Fills c.maxSize buffer reads buffer' .error → Chunked c buffer reads none
  | chunk {buffer buffer' chunk rest : Bytes} {reads reads' : List ReadResult} {status : Filled}
      {out : Option (List Bytes)} : Fills c.maxSize buffer reads buffer' status → status ≠ .error →
      cutBuffer c status buffer' = some (chunk, rest) → Chunked c rest reads' out →
      Chunked c buffer (reads ++ reads') (out.map (chunk :: ·))

/-- What happens when a file is stored: whether it can be opened, the results of its reads, and for
each blob whether it is saved before the shutdown signal is seen. -/
structure FileRead where
  opened : Bool
  reads : List ReadResult
  saved : List Bool

/-- The chunks that `store_small_file` or `chunk_and_store_file` has saved; `none` after an error.
-/
inductive StoresFile (c : Chunker) (size : Nat) (r : FileRead) : Option (List Bytes) → Prop where
  | unopened : r.opened = false → StoresFile c size r none
  | empty : r.opened = true → size = 0 → StoresFile c size r (some [])
  | small {bytes : Bytes} : r.opened = true → 0 < size → size ≤ minChunkSize →
      ReadExact size r.reads (some bytes) → r.saved = [true] → StoresFile c size r (some [bytes])
  | smallUnread : r.opened = true → 0 < size → size ≤ minChunkSize → ReadExact size r.reads none →
      StoresFile c size r none
  | large {chunks : List Bytes} : r.opened = true → minChunkSize < size →
      Chunked c [] r.reads (some chunks) → r.saved = chunks.map (fun _ => true) →
      StoresFile c size r (some chunks)
  | largeUnread : r.opened = true → minChunkSize < size → Chunked c [] r.reads none →
      StoresFile c size r none
  /-- A blob is not saved. A large file is then not read to its end. -/
  | unsaved : r.opened = true → 0 < size → false ∈ r.saved → StoresFile c size r none

/-- The file is read and saved as a whole, with the size that the `stat` said. -/
structure FileRead.Whole (size : Nat) (r : FileRead) : Prop where
  opened : r.opened = true
  saved : false ∉ r.saved
  readable : .error ∉ r.reads
  size_eq : (readBytes r.reads).length = size

section Reading

variable {c : Chunker}

theorem readBytes_append (reads reads' : List ReadResult) :
    readBytes (reads ++ reads') = readBytes reads ++ readBytes reads' := List.flatMap_append

/-- `read_exact` returns the bytes of its reads, as many as it was asked for. -/
theorem ReadExact.spec {n : Nat} {reads : List ReadResult} {out : Option Bytes}
    (h : ReadExact n reads out) :
    (∀ bytes, out = some bytes → bytes = readBytes reads ∧ bytes.length = n ∧ .error ∉ reads) ∧
      (out = none → .error ∈ reads ∨ (readBytes reads).length < n) := by
  induction h with
  | done =>
    refine ⟨fun bytes hout => ?_, fun hout => by cases hout⟩
    cases hout
    exact ⟨rfl, rfl, List.not_mem_nil⟩
  | eof => exact ⟨fun bytes hout => (by cases hout), fun _ => Or.inr (Nat.succ_pos _)⟩
  | error => exact ⟨fun bytes hout => (by cases hout), fun _ => Or.inl List.mem_cons_self⟩
  | interrupted h ih =>
    refine ⟨fun bytes hout => ?_, fun hout => ?_⟩
    · obtain ⟨hbytes, hlen, herr⟩ := ih.1 bytes hout
      exact ⟨hbytes, hlen, by simpa using herr⟩
    · exact (ih.2 hout).imp_left (List.mem_cons_of_mem _)
  | @bytes n first reads out hne h ih =>
    refine ⟨fun bytes hout => ?_, fun hout => ?_⟩
    · obtain ⟨rest, hrest, rfl⟩ := Option.map_eq_some_iff.mp hout
      obtain ⟨hbytes, hlen, herr⟩ := ih.1 rest hrest
      refine ⟨?_, ?_, by simpa using herr⟩
      · rw [hbytes]
        rfl
      · rw [List.length_append, hlen]
    · rcases ih.2 (Option.map_eq_none_iff.mp hout) with herr | hlt
      · exact Or.inl (List.mem_cons_of_mem _ herr)
      · right
        have hsplit : readBytes (.ok first :: reads) = first ++ readBytes reads := rfl
        rw [hsplit, List.length_append]
        omega

/-- The buffer grows by the bytes of the reads. -/
theorem Fills.spec {maxSize : Nat} {buffer buffer' : Bytes} {reads : List ReadResult} {status : Filled}
    (h : Fills maxSize buffer reads buffer' status) :
    buffer' = buffer ++ readBytes reads ∧ (status = .error ↔ .error ∈ reads) ∧
      (status = .full → maxSize ≤ buffer'.length) := by
  induction h with
  | full hle => exact ⟨by simp [readBytes], by simp, fun _ => hle⟩
  | eof hlt => exact ⟨by simp [readBytes], by simp, fun h => by cases h⟩
  | error hlt => exact ⟨by simp [readBytes], by simp, fun h => by cases h⟩
  | interrupted hlt h ih => exact ⟨ih.1, by simpa using ih.2.1, ih.2.2⟩
  | bytes hne hle h ih =>
    refine ⟨?_, by simpa using ih.2.1, ih.2.2⟩
    rw [ih.1, List.append_assoc]
    rfl

/-- A chunk is cut from the front of the buffer. -/
theorem cutBuffer_eq_some {status : Filled} {buffer chunk rest : Bytes}
    (h : cutBuffer c status buffer = some (chunk, rest)) : chunk ++ rest = buffer := by
  unfold cutBuffer at h
  split at h
  · cases h
  · dsimp only at h
    split at h
    · cases h
      exact List.take_append_drop _ _
    · split at h
      · cases h
        exact List.append_nil _
      · cases h

/-- Nothing is left in the buffer when the stream ends. -/
theorem cutBuffer_eq_none {status : Filled} {buffer : Bytes} (herr : status ≠ .error)
    (hfull : status = .full → c.maxSize ≤ buffer.length) (h : cutBuffer c status buffer = none) :
    buffer = [] := by
  by_contra hne
  unfold cutBuffer at h
  rw [if_neg fun hnil => hne hnil.2] at h
  dsimp only at h
  split at h
  · cases h
  · rename_i hcut
    cases status with
    | error => exact herr rfl
    | eof =>
      rw [if_pos ⟨rfl, hne⟩] at h
      cases h
    | full =>
      -- a full buffer has a cut
      have hlen := hfull rfl
      have hmm := c.min_le_max
      refine hcut ⟨by omega, c.cut_pos ?_⟩
      rw [min_eq_right hlen]
      intro hnil
      have hpos := c.minSize_pos
      rcases List.take_eq_nil_iff.mp hnil with hzero | hnil
      · omega
      · exact hne hnil

/-- **The chunks are the bytes of the reads**, unless one of these fails. -/
theorem Chunked.spec {buffer : Bytes} {reads : List ReadResult} {out : Option (List Bytes)}
    (h : Chunked c buffer reads out) :
    (∀ chunks, out = some chunks → chunks.flatten = buffer ++ readBytes reads ∧ .error ∉ reads) ∧
      (out = none → .error ∈ reads) := by
  induction h with
  | done hfill herr hcut =>
    obtain ⟨hbuf, hstatus, hfull⟩ := hfill.spec
    refine ⟨fun chunks hout => ?_, fun hout => by cases hout⟩
    cases hout
    rw [← hbuf, cutBuffer_eq_none herr hfull hcut]
    exact ⟨rfl, fun hmem => herr (hstatus.mpr hmem)⟩
  | error hfill =>
    obtain ⟨-, hstatus, -⟩ := hfill.spec
    exact ⟨fun chunks hout => (by cases hout), fun _ => hstatus.mp rfl⟩
  | chunk hfill herr hcut h ih =>
    obtain ⟨hbuf, hstatus, -⟩ := hfill.spec
    have hsplit := cutBuffer_eq_some hcut
    refine ⟨fun chunks hout => ?_, fun hout => ?_⟩
    · obtain ⟨rest, hrest, rfl⟩ := Option.map_eq_some_iff.mp hout
      obtain ⟨hflat, hnoerr⟩ := ih.1 rest hrest
      refine ⟨?_, fun hmem => ?_⟩
      · rw [List.flatten_cons, hflat, readBytes_append, ← List.append_assoc, ← List.append_assoc,
          hsplit,
          hbuf]
      · rcases List.mem_append.mp hmem with hmem | hmem
        · exact herr (hstatus.mpr hmem)
        · exact hnoerr hmem
    · exact List.mem_append_right _ (ih.2 (Option.map_eq_none_iff.mp hout))

/-- **What is saved has the size of the `stat` exactly when the file was read and saved as a
whole.** -/
theorem StoresFile.size_iff {size : Nat} {r : FileRead} {out : Option (List Bytes)}
    (h : StoresFile c size r out) :
    size = (out.getD []).flatten.length ↔ size = 0 ∨ r.Whole size := by
  -- after an error nothing is saved
  have hnone : ¬ r.Whole size → (size = ([] : List Bytes).flatten.length ↔ size = 0 ∨
      r.Whole size) := by
    intro hno
    simp [hno]
  cases h with
  | unopened hopen =>
    refine hnone fun hw => ?_
    rw [hw.opened] at hopen
    cases hopen
  | empty hopen hzero => simp [hzero]
  | @small bytes hopen hpos hle hread hsaved =>
    obtain ⟨hbytes, hlen, herr⟩ := hread.spec.1 bytes rfl
    have hall : size = ((some [bytes]).getD []).flatten.length := by simp [hlen]
    refine ⟨fun _ => Or.inr ⟨hopen, ?_, herr, ?_⟩, fun _ => hall⟩
    · rw [hsaved]
      simp
    · rw [← hbytes, hlen]
  | smallUnread hopen hpos hle hread =>
    refine hnone fun hw => ?_
    rcases hread.spec.2 rfl with herr | hlt
    · exact hw.readable herr
    · have hsize := hw.size_eq
      omega
  | @large chunks hopen hlt hread hsaved =>
    obtain ⟨hflat, herr⟩ := hread.spec.1 chunks rfl
    rw [List.nil_append] at hflat
    rw [Option.getD_some, hflat]
    constructor
    · intro hsize
      refine Or.inr ⟨hopen, ?_, herr, hsize.symm⟩
      rw [hsaved]
      simp
    · rintro (hzero | hw)
      · omega
      · exact hw.size_eq.symm
  | largeUnread hopen hlt hread => exact hnone fun hw => hw.readable (hread.spec.2 rfl)
  | unsaved hopen hpos hmem => exact hnone fun hw => hw.saved hmem

end Reading

/-! ## The stored nodes -/

/-- A run of a backup: the nodes as the `stat` has them, what goes wrong in the comparison with the
parent, and what happens when a file is stored. -/
structure LiveRun (c : Chunker) where
  stat : Path → Option StreamNode
  seen : Path → Seen
  read : Path → FileRead
  chunks : Path → Option (List Bytes)
  bare : ∀ path item, stat path = some item → item.node.Bare
  stores : ∀ path item, stat path = some item → item.node.isFile = true →
    StoresFile c item.node.metadata.size (read path) (chunks path)

namespace LiveRun

variable {c : Chunker} (fromContent : Bytes → ID) (parent : Path → Option StreamNode) (r : LiveRun c)
  (path : Path)

/-- The node that the run stores for a path. -/
def store : Option StreamNode :=
  (r.stat path).bind fun item =>
    (processItemSync ((r.seen path).prev (parent path)).join (some item)
      (nodeDiff ((r.seen path).prev (parent path)) item)
      ((r.chunks path).map (List.map fromContent))).join

end LiveRun

/-- The nodes of the last snapshot of a chain of runs. The last run comes first. -/
def liveSnapshot {c : Chunker} (fromContent : Bytes → ID) : List (LiveRun c) → Path → Option StreamNode
  | [], _ => none
  | r :: rs, path => r.store fromContent (liveSnapshot fromContent rs) path

/-- The size of the node is that of its blobs. -/
def Node.SizeMatches (rawLength : ID → Nat) (node : Node) : Prop :=
  node.metadata.size = ((node.blobs.getD []).map rawLength).sum

/-- The size is zero, or the run that last processed the file as new or changed has read and saved
it as a whole, and it was a file in every run since. -/
def LastWhole {c : Chunker} (fromContent : Bytes → ID) : List (LiveRun c) → Path → Prop
  | [], _ => False
  | r :: rs, path => ∃ item, r.stat path = some item ∧ (item.node.metadata.size = 0 ∨
      item.node.isFile = true ∧
        if nodeDiff ((r.seen path).prev (liveSnapshot fromContent rs path)) item = .unchanged then
          LastWhole fromContent rs path
        else (r.read path).Whole item.node.metadata.size)

section Store

variable {c : Chunker} {fromContent : Bytes → ID} {parent : Path → Option StreamNode} {r : LiveRun c}
  {rs : List (LiveRun c)} {path : Path} {item out : StreamNode} {rawLength : ID → Nat}

/-- The size of a node that was just processed. -/
theorem LiveRun.sizeMatches_processed (hitem : r.stat path = some item)
    (hraw : ∀ chunks, r.chunks path = some chunks →
      ∀ chunk ∈ chunks, rawLength (fromContent chunk) = chunk.length) :
    (if item.node.isFile then
      match (r.chunks path).map (List.map fromContent) with
      | some ids => { item with node := { item.node with blobs := some ids } }
      | none => item
    else item).node.SizeMatches rawLength ↔
      item.node.metadata.size = 0 ∨
        item.node.isFile = true ∧ (r.read path).Whole item.node.metadata.size := by
  have hbare : item.node.blobs = none := (r.bare path item hitem).1
  by_cases hfile : item.node.isFile = true
  · have hsize := (r.stores path item hitem hfile).size_iff
    simp only [hfile, if_true, true_and]
    rw [← hsize]
    cases hchunks : r.chunks path with
    | none => simp [Node.SizeMatches, hbare]
    | some chunks =>
      -- the raw lengths are those of the chunks
      have hlen : (chunks.map fromContent).map rawLength = chunks.map List.length := by
        rw [List.map_map]
        exact List.map_congr_left fun chunk hmem => hraw chunks hchunks chunk hmem
      simp only [Node.SizeMatches, Option.map_some, Option.getD_some, hlen, List.length_flatten]
  · rw [if_neg hfile]
    simp [Node.SizeMatches, hbare, hfile]

theorem Node.size_eq_of_hint {a b : Node} (h : a.isModifiedHint b = false) :
    a.metadata.size = b.metadata.size := by
  simp only [Node.isModifiedHint, decide_eq_false_iff_not, not_or, not_not] at h
  exact h.1

/-- The stored size is that of the `stat`. -/
theorem LiveRun.size_store (hitem : r.stat path = some item)
    (hout : r.store fromContent parent path = some out) :
    out.node.metadata.size = item.node.metadata.size := by
  rw [LiveRun.store, hitem, Option.bind_some] at hout
  rcases processItemSync_cases ((r.seen path).prev (parent path)) item
    ((r.chunks path).map (List.map fromContent)) with
    ⟨-, p, -, hhint, heq⟩ | ⟨-, heq⟩
  · rw [heq, Option.join_some] at hout
    cases hout
    exact Node.size_eq_of_hint hhint
  · rw [heq, Option.join_some] at hout
    cases hout
    split
    · split <;> rfl
    · rfl

/-- A node of size zero has the size of its blobs. -/
theorem lastWhole_of_size_zero (hout : liveSnapshot fromContent rs path = some out)
    (hzero : out.node.metadata.size = 0) : LastWhole fromContent rs path := by
  cases rs with
  | nil => cases hout
  | cons r rs =>
    rw [liveSnapshot] at hout
    cases hitem : r.stat path with
    | none =>
      rw [LiveRun.store, hitem] at hout
      cases hout
    | some item =>
      have hsize := LiveRun.size_store hitem hout
      exact ⟨item, hitem, Or.inl (hsize.symm.trans hzero)⟩

end Store

/-- **When a stored node has the size of its blobs.** In every chain of backups, the size of the
node that is stored for a path is the sum of the raw lengths of its blobs if and only if it is zero,
or the run that last processed the file opened it, read from it exactly as many bytes as the `stat`
said without an error and saved every blob. -/
theorem stored_size_iff {c : Chunker} {fromContent : Bytes → ID} {rawLength : ID → Nat}
    {rs : List (LiveRun c)} {path : Path} {out : StreamNode}
    (hraw : ∀ r ∈ rs, ∀ chunks, r.chunks path = some chunks →
      ∀ chunk ∈ chunks, rawLength (fromContent chunk) = chunk.length)
    (hout : liveSnapshot fromContent rs path = some out) :
    out.node.SizeMatches rawLength ↔ LastWhole fromContent rs path := by
  induction rs generalizing out with
  | nil => cases hout
  | cons r rs ih =>
    rw [liveSnapshot, LiveRun.store] at hout
    cases hitem : r.stat path with
    | none =>
      rw [hitem] at hout
      cases hout
    | some item =>
      rw [hitem, Option.bind_some] at hout
      have hlast : LastWhole fromContent (r :: rs) path ↔ item.node.metadata.size = 0 ∨
          item.node.isFile = true ∧
            if nodeDiff ((r.seen path).prev (liveSnapshot fromContent rs path)) item =
                .unchanged then
              LastWhole fromContent rs path
            else (r.read path).Whole item.node.metadata.size := by
        simp [LastWhole, hitem]
      rw [hlast]
      rcases processItemSync_cases ((r.seen path).prev (liveSnapshot fromContent rs path)) item
        ((r.chunks path).map (List.map fromContent)) with ⟨hdiff, p, hp, hhint, heq⟩ | ⟨hdiff, heq⟩
      · -- the node of the parent is taken over
        rw [heq, Option.join_some] at hout
        cases hout
        rw [if_pos hdiff]
        have hparent := Seen.parent_of_prev hp
        have hiff := ih (fun r' hr' => hraw r' (List.mem_cons_of_mem _ hr')) hparent
        have hsize := Node.size_eq_of_hint hhint
        by_cases hfile : item.node.isFile = true
        · have hsame : (item.unchanged p.node).node.SizeMatches rawLength ↔
              p.node.SizeMatches rawLength := by
            simp [Node.SizeMatches, StreamNode.unchanged, hfile]
          rw [hsame, hiff]
          refine ⟨fun h => Or.inr ⟨hfile, h⟩, ?_⟩
          rintro (hzero | ⟨-, h⟩)
          · exact lastWhole_of_size_zero hparent (hsize.trans hzero)
          · exact h
        · have hbare : item.node.blobs = none := (r.bare path item hitem).1
          simp [Node.SizeMatches, StreamNode.unchanged, hfile, hbare, hsize]
      · rw [heq, Option.join_some] at hout
        cases hout
        rw [if_neg hdiff]
        exact LiveRun.sizeMatches_processed hitem (hraw r List.mem_cons_self)

/-- A run over one file of one byte, as the `stat` has it. It can be read, or it is empty by then.
-/
def sampleLive (shrinks : Bool) : LiveRun sampleChunker where
  stat := fun _ => some ⟨{ name := "a", metadata := { size := 1 } }, 0⟩
  seen := fun _ => .node
  read := fun _ => ⟨true, [.ok (if shrinks then [] else [7])], if shrinks then [] else [true]⟩
  chunks := fun _ => if shrinks then none else some [[7]]
  bare := by
    intro path item h
    cases h
    exact ⟨rfl, rfl⟩
  stores := by
    intro path item h _
    cases h
    cases shrinks with
    | true => exact .smallUnread rfl Nat.one_pos (by decide) .eof
    | false =>
      have hread : ReadExact 1 [.ok [7]] (some [7]) := .bytes (List.cons_ne_nil 7 []) .done
      exact .small rfl Nat.one_pos (by decide) hread rfl

/-- The second run finds the file unchanged, and takes over the one blob of the first one. -/
theorem sample_stored_size : ∃ out,
    liveSnapshot (fun _ => 0) [sampleLive false, sampleLive false] [] = some out ∧
      out.node.SizeMatches fun _ => 1 := by
  have hraw : ∀ r ∈ [sampleLive false, sampleLive false], ∀ chunks, r.chunks [] = some chunks →
      ∀ chunk ∈ chunks, (fun _ => 1 : ID → Nat) ((fun _ => 0 : Bytes → ID) chunk) = chunk.length := by
    intro r hr chunks hchunks chunk hchunk
    have hr' : r = sampleLive false := by simpa using hr
    subst hr'
    cases hchunks
    rw [List.mem_singleton.mp hchunk]
    rfl
  have hwhole : LastWhole (fun _ => 0) [sampleLive false, sampleLive false] [] := by
    refine ⟨_, rfl, Or.inr ⟨rfl, _, rfl, Or.inr ⟨rfl, rfl, ?_, ?_, rfl⟩⟩⟩
    · simp [sampleLive]
    · simp [sampleLive]
  exact ⟨_, rfl, (stored_size_iff hraw rfl).mpr hwhole⟩

/-- **A file that shrinks is stored with its old size and without blobs.** The `stat` finds one
byte, the read finds none, and the node goes into the snapshot all the same. -/
theorem shrunk_file_keeps_size : ∃ out,
    liveSnapshot (fun _ => 0) [sampleLive true] [] = some out ∧ out.node.isFile = true ∧
      ¬ out.node.SizeMatches fun _ => 1 := by
  refine ⟨_, rfl, rfl, ?_⟩
  unfold Node.SizeMatches
  decide

/-! ## Standard input -/

/-- `process_stdin_sync`: the node of a file that was read to its end, with the bytes that were read
as its size; `none` where an error is returned. -/
def processStdinSync (fromContent : Bytes → ID) (item : StreamNode) (reads : List ReadResult)
    (stored : Option (List Bytes)) : Option StreamNode :=
  if item.node.isFile then
    stored.map fun chunks =>
      { item with
        node :=
          { item.node with
            blobs := some (chunks.map fromContent)
            metadata := { item.node.metadata with size := (readBytes reads).length } } }
  else some item

/-- **What is stored for standard input has the size of its blobs.** -/
theorem processStdinSync_size {c : Chunker} {fromContent : Bytes → ID} {rawLength : ID → Nat}
    {item out : StreamNode} {reads : List ReadResult} {stored : Option (List Bytes)}
    (hread : Chunked c [] reads stored) (hfile : item.node.isFile = true)
    (hraw : ∀ chunks, stored = some chunks →
      ∀ chunk ∈ chunks, rawLength (fromContent chunk) = chunk.length)
    (hout : processStdinSync fromContent item reads stored = some out) :
    out.node.SizeMatches rawLength := by
  rw [processStdinSync, if_pos hfile] at hout
  obtain ⟨chunks, hstored, rfl⟩ := Option.map_eq_some_iff.mp hout
  obtain ⟨hflat, -⟩ := hread.spec.1 chunks hstored
  have hlen : (chunks.map fromContent).map rawLength = chunks.map List.length := by
    rw [List.map_map]
    exact List.map_congr_left fun chunk hmem => hraw chunks hstored chunk hmem
  rw [List.nil_append] at hflat
  simp only [Node.SizeMatches, Option.getD_some, hlen, ← hflat, List.length_flatten]

end Mapache
