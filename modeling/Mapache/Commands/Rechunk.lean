import Mapache.Commands.Amend
import Mapache.Fs.NodeData

/-!
# Rechunking

`rechunk` rewrites all snapshots, and the blobs of every file on the way: the data of the old blobs
is read, cut again and saved, once for every list of old blobs (`rechunked_blobs_list_map`).

A run of the chunk stream over the reader of the old blobs is a run over their bytes with a schedule
of short reads (`ReaderStream.next_eq`), so it yields the chunks of the data, whatever the old blobs
were (`runRechunkTask_spec`). The memo has nothing else (`Remembers`), and so every file keeps its
content (`rewrite_preserves_iff`).

The root of a stored tree is written again only up to the number of entries that the source paths
have there, so a snapshot keeps its meaning if and only if its root has no more of them
(`rechunk_preserves_iff`). With nested source paths it can: a source that is the root of the snapshot
counts for no entry.
-/

set_option autoImplicit false

namespace Mapache

open Lib

/-- What rechunking uses: the chunker, the repository with the old blobs, and for each chunk of the
run whether saving it fails or the interrupt flag is seen before it. -/
structure RechunkEnv extends TreeEnv where
  chunker : Chunker
  store : BlobStore
  fails : Nat → Bool

/-! ## The chunks of a node -/

/-- The loop of `ChunkStream::next` with the data of a node. A read that returns has a byte at
least, which bounds the fuel. -/
def fillFrom (store : BlobStore) (maxSize : Nat) : Nat → Bytes → SerializedNodeDataReader →
    Bytes × SerializedNodeDataReader × Filled
  | 0, buffer, r => (buffer, r, .error)
  | fuel + 1, buffer, r =>
    if buffer.length < maxSize then
      match r.read store (maxSize - buffer.length) with
      | none => (buffer, r, .error)
      | some ([], r') => (buffer, r', .eof)
      | some (b :: bs, r') => fillFrom store maxSize fuel (buffer ++ b :: bs) r'
    else (buffer, r, .full)

/-- `ChunkStream` over the data of a node. -/
structure ReaderStream where
  reader : SerializedNodeDataReader
  buffer : Bytes
  globalOffset : Nat

/-- `ChunkStream::next`. -/
def ReaderStream.next (store : BlobStore) (c : Chunker) (s : ReaderStream) :
    Option (Option Chunk) × ReaderStream :=
  match fillFrom store c.maxSize (c.maxSize + 1) s.buffer s.reader with
  | (buffer, r, .error) => (some none, ⟨r, buffer, s.globalOffset⟩)
  | (buffer, r, status) =>
    if status = .eof ∧ buffer = [] then (none, ⟨r, buffer, s.globalOffset⟩)
    else
      let cutPoint := c.cut (buffer.take (min buffer.length c.maxSize))
      if c.minSize ≤ buffer.length ∧ 0 < cutPoint then
        (some (some ⟨s.globalOffset, cutPoint, buffer.take cutPoint⟩),
          ⟨r, buffer.drop cutPoint, s.globalOffset + cutPoint⟩)
      else if status = .eof ∧ buffer ≠ [] then
        (some (some ⟨s.globalOffset, buffer.length, buffer⟩),
          ⟨r, [], s.globalOffset + buffer.length⟩)
      else (none, ⟨r, buffer, s.globalOffset⟩)

section Definitions

variable (env : RechunkEnv)

/-- The loop of `chunk_and_store_file`, with the number of chunks that the run has saved. The fuel
bounds the number of chunks. -/
def chunkAndStoreFile : Nat → ReaderStream → Nat → Option (List ID × Nat)
  | 0, _, _ => none
  | fuel + 1, s, saved =>
    match s.next env.store env.chunker with
    | (none, _) => some ([], saved)
    | (some none, _) => none
    | (some (some chunk), s') =>
      if env.fails saved then none
      else (chunkAndStoreFile fuel s' (saved + 1)).map fun (ids, saved) =>
        (env.fromContent chunk.data :: ids, saved)

/-- `run_rechunk_task`. -/
def runRechunkTask (blobs : List ID) (saved : Nat) : Option (List ID × Nat) :=
  (SerializedNodeDataReader.new env.store blobs).bind fun reader =>
    chunkAndStoreFile env (reader.totalLength + 1) ⟨reader, [], 0⟩ saved

/-- What the snapshots share: the memo and the number of chunks that have been saved. -/
structure RechunkState where
  rechunkedBlobsListMap : Table (List ID) (List ID)
  saved : Nat

/-- The part of `rewrite_snapshot_tree` that rechunks a node. -/
def rechunkNode (s : RechunkState) (node : Node) : Option (Node × RechunkState) :=
  if node.isFile then
    node.blobs.bind fun blobs =>
      match s.rechunkedBlobsListMap.lookup blobs with
      | some rechunked => some ({ node with blobs := some rechunked }, s)
      | none =>
        (runRechunkTask env blobs s.saved).map fun (rechunked, saved) =>
          ({ node with blobs := some rechunked },
            ⟨s.rechunkedBlobsListMap.insert blobs rechunked, saved⟩)
  else some (node, s)

/-- The loop of `rechunk` over the snapshots, without the snapshot files. -/
def rechunkSnapshots (load : ID → Except StreamError (List Node)) (fuel : Nat) :
    List SnapshotRecord → RechunkState → Option (List SnapshotRecord × RechunkState)
  | [], s => some ([], s)
  | snapshot :: snapshots, s =>
    (rewriteSnapshotTree env.toTreeEnv load .all (rechunkNode env) fuel snapshot s).bind
      fun (snapshot', s') => (rechunkSnapshots load fuel snapshots s').map
        fun (snapshots', s'') => (snapshot' :: snapshots', s'')

end Definitions

/-! ## The stream over the reader -/

section Stream

open SerializedNodeDataReader

variable {store : BlobStore} {c : Chunker} {blobs : List ID} {r r' : SerializedNodeDataReader}
  {buffer buffer' : Bytes} {status : Filled} {maxSize fuel : Nat}

theorem fill_of_read {src src' : Source} {b : UInt8} {bs : Bytes} (hlt : buffer.length < maxSize)
    (hread : src.read (maxSize - buffer.length) = (.ok (b :: bs), src')) :
    fill maxSize buffer src = fill maxSize (buffer ++ b :: bs) src' := by
  rw [fill, dif_pos hlt]
  split <;> rename_i heq <;> rw [hread] at heq <;> cases heq
  rfl

theorem fill_of_end {src src' : Source} (hlt : buffer.length < maxSize)
    (hread : src.read (maxSize - buffer.length) = (.ok [], src')) :
    fill maxSize buffer src = (buffer, src', .eof) := by
  rw [fill, dif_pos hlt]
  split <;> rename_i heq <;> rw [hread] at heq <;> cases heq
  rfl

/-- **The reader fills the buffer as a source does** that has the same bytes left, on some schedule
of short reads. -/
theorem fillFrom_eq (hr : Reading store blobs r) (hne : ∀ id ∈ blobs, store.plain id ≠ [])
    (h : fillFrom store maxSize fuel buffer r = (buffer', r', status)) (hstatus : status ≠ .error) :
    Reading store blobs r' ∧ ∃ schedule : List ReadEvent, .fail ∉ schedule ∧ ∀ later,
      fill maxSize buffer ⟨r.rest store, schedule ++ later⟩ =
        (buffer', ⟨r'.rest store, later⟩, status) := by
  induction fuel generalizing buffer r with
  | zero =>
    cases h
    exact absurd rfl hstatus
  | succ fuel ih =>
    rw [fillFrom] at h
    split at h
    · rename_i hlt
      split at h
      · cases h
        exact absurd rfl hstatus
      · rename_i r₁ hread
        cases h
        obtain ⟨hr', hrest, -, hend⟩ := read_spec hr hne hread
        have hnil := hend (by omega) rfl
        rw [List.nil_append] at hrest
        refine ⟨hr', [.short 0], by decide, fun later => fill_of_end hlt ?_⟩
        rw [hnil] at hrest ⊢
        rw [← hrest]
        unfold Source.read
        dsimp only [List.cons_append, List.nil_append]
        rw [List.take_nil, List.drop_nil]
      · rename_i b bs r₁ hread
        obtain ⟨hr₁, hrest, hlen, -⟩ := read_spec hr hne hread
        obtain ⟨hr', schedule, hfail, hfill⟩ := ih hr₁ h
        refine ⟨hr', .short bs.length :: schedule, ?_, fun later => ?_⟩
        · simpa using hfail
        · rw [← hfill later]
          apply fill_of_read hlt
          rw [List.length_cons] at hlen
          unfold Source.read
          dsimp only [List.cons_append]
          rw [min_eq_left hlen, hrest, List.take_left' List.length_cons,
            List.drop_left' List.length_cons]
    · rename_i hge
      cases h
      refine ⟨hr, [], List.not_mem_nil, fun later => ?_⟩
      rw [fill, dif_neg hge]
      rfl

/-- **A step of the stream over the reader is one of the stream over its bytes**, on some schedule.
-/
theorem ReaderStream.next_eq {s s' : ReaderStream} {out : Option (Option Chunk)}
    (hr : Reading store blobs s.reader) (hne : ∀ id ∈ blobs, store.plain id ≠ [])
    (h : s.next store c = (out, s')) (hout : out ≠ some none) :
    Reading store blobs s'.reader ∧ ∃ schedule : List ReadEvent, .fail ∉ schedule ∧ ∀ later,
      ChunkStream.next c ⟨⟨s.reader.rest store, schedule ++ later⟩, s.buffer, s.globalOffset⟩ =
        (out, ⟨⟨s'.reader.rest store, later⟩, s'.buffer, s'.globalOffset⟩) := by
  obtain ⟨⟨buffer, r, status⟩, hfill⟩ :
    ∃ res, fillFrom store c.maxSize (c.maxSize + 1) s.buffer s.reader = res := ⟨_, rfl⟩
  have hstatus : status ≠ .error := by
    rintro rfl
    rw [next, hfill] at h
    cases h
    exact hout rfl
  obtain ⟨hr', schedule, hfail, hsource⟩ := fillFrom_eq hr hne hfill hstatus
  have hreader : s'.reader = r := by
    rw [next, hfill] at h
    cases status with
    | error => exact absurd rfl hstatus
    | full | eof =>
      dsimp only at h
      split at h
      · cases h
        rfl
      · split at h
        · cases h
          rfl
        · split at h <;> cases h <;> rfl
  refine ⟨hreader ▸ hr', schedule, hfail, fun later => ?_⟩
  rw [ChunkStream.next, hsource later]
  rw [next, hfill] at h
  cases status with
  | error => exact absurd rfl hstatus
  | full | eof =>
    dsimp only at h ⊢
    split at h
    · cases h
      rw [if_pos ‹_›]
    · rw [if_neg ‹_›]
      split at h
      · cases h
        rw [if_pos ‹_›]
      · rw [if_neg ‹_›]
        split at h
        · cases h
          rw [if_pos ‹_›]
        · cases h
          rw [if_neg ‹_›]

/-- Where every blob can be loaded, the buffer is filled. -/
theorem fillFrom_ne_error (hr : Reading store blobs r) (hne : ∀ id ∈ blobs, store.plain id ≠ [])
    (hloads : ∀ id ∈ blobs, (store.loadBlob id).isSome) (hfuel : maxSize < fuel + buffer.length)
    (h : fillFrom store maxSize fuel buffer r = (buffer', r', status))
    (hlen : buffer.length ≤ maxSize) :
    status ≠ .error := by
  induction fuel generalizing buffer r with
  | zero => omega
  | succ fuel ih =>
    rw [fillFrom] at h
    split at h
    · split at h
      · rename_i hread
        obtain ⟨out, hout⟩ := exists_read hr hne hloads (maxSize - buffer.length)
        rw [hread] at hout
        cases hout
      · cases h
        exact Filled.noConfusion
      · rename_i b bs r₁ hread
        obtain ⟨hr₁, -, hread_le, -⟩ := read_spec hr hne hread
        rw [List.length_cons] at hread_le
        refine ih hr₁ ?_ h ?_
        · rw [List.length_append, List.length_cons]
          omega
        · rw [List.length_append, List.length_cons]
          omega
    · cases h
      exact Filled.noConfusion

theorem ReaderStream.next_ne_error {s s' : ReaderStream} {out : Option (Option Chunk)}
    (hr : Reading store blobs s.reader) (hne : ∀ id ∈ blobs, store.plain id ≠ [])
    (hloads : ∀ id ∈ blobs, (store.loadBlob id).isSome) (hlen : s.buffer.length ≤ c.maxSize)
    (h : s.next store c = (out, s')) : out ≠ some none := by
  obtain ⟨⟨buffer, r, status⟩, hfill⟩ :
    ∃ res, fillFrom store c.maxSize (c.maxSize + 1) s.buffer s.reader = res := ⟨_, rfl⟩
  have hstatus := fillFrom_ne_error hr hne hloads (by omega) hfill hlen
  rw [next, hfill] at h
  cases status with
  | error => exact absurd rfl hstatus
  | full | eof =>
    dsimp only at h
    split at h
    · cases h
      exact nofun
    · split at h
      · cases h
        exact nofun
      · split at h <;> cases h <;> exact nofun

end Stream

/-! ## The task -/

section Task

open SerializedNodeDataReader

variable {env : RechunkEnv} {blobs ids : List ID} {fuel saved saved' : Nat}

/-- The chunks that are saved are those of the stream. -/
theorem chunkAndStoreFile_spec {s : ReaderStream} (hr : Reading env.store blobs s.reader)
    (hne : ∀ id ∈ blobs, env.store.plain id ≠ [])
    (h : chunkAndStoreFile env fuel s saved = some (ids, saved')) :
    ∃ (chunks : List Chunk) (schedule : List ReadEvent), .fail ∉ schedule ∧
      ChunkStream.Yields env.chunker
        ⟨⟨s.reader.rest env.store, schedule⟩, s.buffer, s.globalOffset⟩ chunks ∧
      ids = chunks.map fun chunk => env.fromContent chunk.data := by
  induction fuel generalizing s saved ids with
  | zero => cases h
  | succ fuel ih =>
    rw [chunkAndStoreFile] at h
    split at h
    · rename_i hnext
      cases h
      obtain ⟨-, schedule, hfail, hsource⟩ := ReaderStream.next_eq hr hne hnext (by nofun)
      refine ⟨[], schedule, hfail, ?_, rfl⟩
      have hstep := hsource []
      rw [List.append_nil] at hstep
      exact .done hstep
    · cases h
    · rename_i chunk s' hnext
      split at h
      · cases h
      · obtain ⟨⟨ids', saved''⟩, hrest, heq⟩ := Option.map_eq_some_iff.mp h
        cases heq
        obtain ⟨hr', schedule, hfail, hsource⟩ := ReaderStream.next_eq hr hne hnext (by nofun)
        obtain ⟨chunks, schedule', hfail', hyields, rfl⟩ := ih hr' hrest
        refine ⟨chunk :: chunks, schedule ++ schedule', ?_, .chunk (hsource schedule') hyields, rfl⟩
        rw [List.mem_append, not_or]
        exact ⟨hfail, hfail'⟩

/-- The IDs of the chunks of a file with these blobs. -/
def RechunkEnv.chunkIds (env : RechunkEnv) (blobs : List ID) : List ID :=
  (env.chunker.chunks 0 (blobs.flatMap env.store.plain)).map fun chunk => env.fromContent chunk.data

/-- **The new blobs of a file are the chunks of its data.** -/
theorem runRechunkTask_spec (hne : ∀ id ∈ blobs, env.store.plain id ≠ [])
    (h : runRechunkTask env blobs saved = some (ids, saved')) : ids = env.chunkIds blobs := by
  obtain ⟨reader, hnew, hrun⟩ := Option.bind_eq_some_iff.mp h
  obtain ⟨hr, hpos⟩ := new_spec hnew
  obtain ⟨chunks, schedule, hfail, hyields, rfl⟩ := chunkAndStoreFile_spec hr hne hrun
  have hrest : reader.rest env.store = blobs.flatMap env.store.plain := by
    rw [rest, hr.blobIds, hpos, List.drop_zero]
  rw [hrest] at hyields
  have hchunks := ChunkStream.yields_chunks (c := env.chunker) (blobs.flatMap env.store.plain)
    ⟨⟨blobs.flatMap env.store.plain, schedule⟩, [], 0⟩ hfail (Nat.zero_le _) rfl
  rw [hyields.unique hchunks]
  rfl

/-- Where every blob can be loaded and nothing else fails, there are chunks. -/
theorem chunkAndStoreFile_isSome {s : ReaderStream} (hr : Reading env.store blobs s.reader)
    (hne : ∀ id ∈ blobs, env.store.plain id ≠ [])
    (hloads : ∀ id ∈ blobs, (env.store.loadBlob id).isSome) (hfails : ∀ n, env.fails n = false)
    (hlen : s.buffer.length ≤ env.chunker.maxSize)
    (hfuel : (s.buffer ++ s.reader.rest env.store).length < fuel) (saved : Nat) :
    (chunkAndStoreFile env fuel s saved).isSome := by
  induction fuel generalizing s saved with
  | zero => omega
  | succ fuel ih =>
    rw [chunkAndStoreFile]
    obtain ⟨⟨out, s'⟩, hnext⟩ : ∃ res, s.next env.store env.chunker = res := ⟨_, rfl⟩
    have herr := ReaderStream.next_ne_error hr hne hloads hlen hnext
    obtain ⟨hr', schedule, hfail, hsource⟩ := ReaderStream.next_eq hr hne hnext herr
    have hstep := hsource []
    rw [List.append_nil] at hstep
    rw [hnext]
    match out, herr with
    | none, _ => rfl
    | some none, herr => exact absurd rfl herr
    | some (some chunk), _ =>
      -- the chunk takes at least a byte of what is left
      obtain ⟨hend, hmore⟩ := ChunkStream.next_spec (c := env.chunker)
        (s := ⟨⟨s.reader.rest env.store, schedule⟩, s.buffer, s.globalOffset⟩) hfail hlen
      have hleft : s.buffer ++ s.reader.rest env.store ≠ [] := fun hnil => by
        obtain ⟨s₁, hs₁⟩ := hend hnil
        rw [hstep] at hs₁
        cases hs₁
      obtain ⟨s₁, hs₁, -, hlen₁, hleft₁, -⟩ := hmore hleft
      rw [hstep] at hs₁
      cases hs₁
      have hpos := env.chunker.cut_pos hleft
      have hshorter : (s'.buffer ++ s'.reader.rest env.store).length < fuel := by
        have hdrop := congrArg List.length hleft₁
        rw [List.length_drop] at hdrop
        have heq : (s'.buffer ++ s'.reader.rest env.store).length =
            (s.buffer ++ s.reader.rest env.store).length -
              env.chunker.cut (s.buffer ++ s.reader.rest env.store) := hdrop
        have hlt := List.length_pos_iff.mpr hleft
        omega
      dsimp only
      rw [if_neg (by rw [hfails]; exact Bool.false_ne_true), Option.isSome_map]
      exact ih hr' hlen₁ hshorter (saved + 1)

theorem runRechunkTask_isSome (hne : ∀ id ∈ blobs, env.store.plain id ≠ [])
    (hindexed : ∀ id ∈ blobs, (env.store.rawLength id).isSome)
    (hloads : ∀ id ∈ blobs, (env.store.loadBlob id).isSome) (hfails : ∀ n, env.fails n = false)
    (saved : Nat) : (runRechunkTask env blobs saved).isSome := by
  obtain ⟨lens, hlens⟩ : ∃ lens, blobs.mapM env.store.rawLength = some lens := by
    clear hne hloads
    induction blobs with
    | nil => exact ⟨[], rfl⟩
    | cons id blobs ih =>
      obtain ⟨len, hlen⟩ := Option.isSome_iff_exists.mp (hindexed id List.mem_cons_self)
      obtain ⟨lens, hlens⟩ := ih fun id' hid' => hindexed id' (List.mem_cons_of_mem _ hid')
      exact ⟨len :: lens, by rw [List.mapM_cons, hlen, hlens]; rfl⟩
  obtain ⟨reader, hnew⟩ : ∃ reader, new env.store blobs = some reader := by
    rw [new, hlens]
    exact ⟨_, rfl⟩
  obtain ⟨hr, hpos⟩ := new_spec hnew
  rw [runRechunkTask, hnew, Option.bind_some]
  refine chunkAndStoreFile_isSome hr hne hloads hfails (Nat.zero_le _) ?_ saved
  rw [List.nil_append, rest, hr.blobIds, hpos, List.drop_zero, hr.totalLength]
  exact Nat.lt_succ_self _

/-- The memo has the chunks of the data of each list of blobs. -/
def Remembers (env : RechunkEnv) (s : RechunkState) : Prop :=
  ∀ blobs rechunked, s.rechunkedBlobsListMap.lookup blobs = some rechunked →
    (∀ id ∈ blobs, env.store.plain id ≠ []) → rechunked = env.chunkIds blobs

/-- What rechunking does to a node: a file gets the chunks of its data, and nothing else changes. -/
def Rechunked (env : RechunkEnv) (node node' : Node) : Prop :=
  if node.isFile then ∃ blobs blobs', node.blobs = some blobs ∧
    node' = { node with blobs := some blobs' } ∧
      ((∀ id ∈ blobs, env.store.plain id ≠ []) → blobs' = env.chunkIds blobs)
  else node' = node

theorem Rechunked.eq {node node' : Node} (h : Rechunked env node node') :
    node' = { node with blobs := node'.blobs } := by
  unfold Rechunked at h
  split at h
  · obtain ⟨blobs, blobs', -, rfl, -⟩ := h
    rfl
  · rw [h]

theorem remembers_empty (env : RechunkEnv) (saved : Nat) : Remembers env ⟨∅, saved⟩ :=
  fun _ _ h => by cases h

/-- What rechunking a node does to it and to the memo. -/
theorem rechunkNode_spec {s s' : RechunkState} {node node' : Node} (hs : Remembers env s)
    (h : rechunkNode env s node = some (node', s')) : Rechunked env node node' ∧ Remembers env s' := by
  unfold rechunkNode at h
  unfold Rechunked
  split at h
  · rename_i hfile
    rw [if_pos hfile]
    obtain ⟨blobs, hblobs, h⟩ := Option.bind_eq_some_iff.mp h
    split at h
    · rename_i rechunked hmemo
      cases h
      exact ⟨⟨blobs, rechunked, hblobs, rfl, hs blobs rechunked hmemo⟩, hs⟩
    · obtain ⟨⟨rechunked, saved⟩, htask, heq⟩ := Option.map_eq_some_iff.mp h
      cases heq
      refine ⟨⟨blobs, rechunked, hblobs, rfl, fun hne => runRechunkTask_spec hne htask⟩, ?_⟩
      intro blobs' rechunked' hlookup hne
      rw [Table.lookup_insert_eq_ite] at hlookup
      split at hlookup
      · rename_i heq
        cases hlookup
        rw [heq] at hne ⊢
        exact runRechunkTask_spec hne htask
      · exact hs blobs' rechunked' hlookup hne
  · rename_i hfile
    cases h
    rw [if_neg hfile]
    exact ⟨rfl, hs⟩

/-- A file has blobs, none of them is empty, and all of them can be loaded. -/
def HasData (store : BlobStore) (node : Node) : Prop :=
  node.isFile = true → ∃ blobs, node.blobs = some blobs ∧ ∀ id ∈ blobs, store.plain id ≠ [] ∧
    (store.rawLength id).isSome ∧ (store.loadBlob id).isSome

theorem rechunkNode_isSome {node : Node} (hdata : HasData env.store node)
    (hfails : ∀ n, env.fails n = false) (s : RechunkState) : (rechunkNode env s node).isSome := by
  unfold rechunkNode
  split
  · rename_i hfile
    obtain ⟨blobs, hblobs, hall⟩ := hdata hfile
    rw [hblobs, Option.bind_some]
    split
    · rfl
    · rw [Option.isSome_map]
      exact runRechunkTask_isSome (fun id hid => (hall id hid).1) (fun id hid => (hall id hid).2.1)
        (fun id hid => (hall id hid).2.2) hfails s.saved
  · rfl

theorem processing_rechunkNode (env : RechunkEnv) :
    Processing (rechunkNode env) (Remembers env) (Rechunked env) where
  dir {s s' node node'} h hdir := by
    have hfile : ¬ node.isFile = true := by
      rw [Node.isDir, decide_eq_true_iff] at hdir
      rw [Node.isFile, decide_eq_true_iff, hdir]
      exact NodeType.noConfusion
    rw [rechunkNode, if_neg hfile] at h
    cases h
    rfl
  other {s s' node node'} hs h hdir := by
    have hspec := (rechunkNode_spec hs h).1
    rw [hspec.eq]
    exact ⟨hdir, rfl, hspec.eq ▸ hspec⟩
  memo hs h := (rechunkNode_spec hs h).2

end Task

/-! ## All snapshots -/

section Snapshots

variable {env : RechunkEnv} {load load' : ID → Except StreamError (List Node)} {plain' : ID → Bytes}
  {snapshot snapshot' : SnapshotRecord} {nodes : List Node} {fuel : Nat} {s s' : RechunkState}

/-- The same node, but for a file the blobs, and their data is the same unless an old one is empty.
-/
def SameData (plain plain' : ID → Bytes) (node node' : Node) : Prop :=
  if node.isFile then ∃ blobs blobs', node.blobs = some blobs ∧
    node' = { node with blobs := some blobs' } ∧
      ((∀ id ∈ blobs, plain id ≠ []) → blobs'.flatMap plain' = blobs.flatMap plain)
  else node' = node

/-- A file of the snapshot has these blobs. -/
def FileOf (load : ID → Except StreamError (List Node)) (snapshot : SnapshotRecord) (blobs : List ID) :
    Prop :=
  ∃ nodes path node, load snapshot.tree = .ok nodes ∧ PathOf load snapshot.root nodes path node ∧
    node.isFile = true ∧ node.blobs = some blobs

/-- The data of the chunks of a file is that of the file. -/
theorem flatMap_chunkIds {blobs : List ID}
    (h : ∀ chunk ∈ env.chunker.chunks 0 (blobs.flatMap env.store.plain),
    plain' (env.fromContent chunk.data) = chunk.data) :
    (env.chunkIds blobs).flatMap plain' = blobs.flatMap env.store.plain := by
  rw [RechunkEnv.chunkIds, List.flatMap_map]
  calc (env.chunker.chunks 0 (blobs.flatMap env.store.plain)).flatMap
        (fun chunk => plain' (env.fromContent chunk.data))
    _ = (env.chunker.chunks 0 (blobs.flatMap env.store.plain)).flatMap Chunk.data :=
        List.flatMap_congr h
    _ = blobs.flatMap env.store.plain := env.chunker.flatMap_chunks 0 _

theorem SameNode.mono {P P' : Node → Node → Prop} {node node' : Node} (h : SameNode P node node')
    (hP : P node node' → P' node node') : SameNode P' node node' := by
  unfold SameNode at h ⊢
  split
  · rwa [if_pos ‹_›] at h
  · rw [if_neg ‹_›] at h
    exact hP h

theorem HasExactly.mono {P P' : Node → Node → Prop} {filter : PathFilter} {base : Path}
    {nodes nodes' : List Node} (h : HasExactly load load' filter P base nodes nodes')
    (hP : ∀ path node node', PathOf load base nodes path node → P node node' → P' node node') :
    HasExactly load load' filter P' base nodes nodes' where
  sound path node' hpath := by
    obtain ⟨hallowed, node, hnode, hsame⟩ := h.sound path node' hpath
    exact ⟨hallowed, node, hnode, hsame.mono (hP path node node' hnode)⟩
  complete path node hpath hallowed := by
    obtain ⟨node', hnode', hsame⟩ := h.complete path node hpath hallowed
    exact ⟨node', hnode', hsame.mono (hP path node node' hpath)⟩

/-- The root of the stored tree has no more entries than the source paths have there. -/
def RootExpected (load : ID → Except StreamError (List Node)) (snapshot : SnapshotRecord) : Prop :=
  ∀ nodes, load snapshot.tree = .ok nodes → nodes.length ≤ expectedEntries .all snapshot

theorem allowedEntries_all (root : Path) (nodes : List Node) : allowedEntries .all root nodes = nodes :=
  List.filter_eq_self.mpr fun _ _ => rfl

/-- So it is where every entry of the root is on the way to a source path. -/
theorem StoredSnapshot.rootExpected (h : StoredSnapshot load snapshot)
    (hway : ∀ nodes, load snapshot.tree = .ok nodes → ∀ node ∈ nodes,
      OnWay snapshot.paths snapshot.root (.normal node.nameBytes)) : RootExpected load snapshot := by
  intro nodes hload
  have hall : snapshot.paths.filter (fun path => PathFilter.all.allow path) = snapshot.paths :=
    List.filter_eq_self.mpr fun _ _ => rfl
  rw [← List.length_map (f := Node.nameBytes)]
  refine le_expectedEntries h.below (h.tree.level hload).nodup_nameBytes fun name hname => ?_
  obtain ⟨node, hnode, rfl⟩ := List.mem_map.mp hname
  rw [hall]
  exact hway nodes hload node hnode

/-- What a rechunked snapshot has of the old one. -/
def Preserved (load load' : ID → Except StreamError (List Node)) (plain plain' : ID → Bytes)
    (snapshot snapshot' : SnapshotRecord) : Prop :=
  snapshot'.root = snapshot.root ∧ snapshot'.paths = snapshot.paths ∧ ∃ nodes nodes',
    load snapshot.tree = .ok nodes ∧ load' snapshot'.tree = .ok nodes' ∧
      HasExactly load load' .all (SameData plain plain') snapshot.root nodes nodes'

/-- After the run the repository reads back the trees and the chunks that it has stored for a
snapshot. -/
structure KeepsRechunked (env : RechunkEnv) (load load' : ID → Except StreamError (List Node))
    (plain' : ID → Bytes) (snapshot : SnapshotRecord) : Prop where
  trees : ∀ nodes, load snapshot.tree = .ok nodes →
    ReadsBack load load' .all env.toTreeEnv (Rechunked env) snapshot nodes
  chunks : ∀ blobs, FileOf load snapshot blobs →
    ∀ chunk ∈ env.chunker.chunks 0 (blobs.flatMap env.store.plain),
      plain' (env.fromContent chunk.data) = chunk.data

/-- **When a snapshot that is rechunked keeps its meaning.** -/
theorem rewrite_preserves_iff (htree : SnapshotTree load snapshot.tree) (hs : Remembers env s)
    (hkeeps : KeepsRechunked env load load' plain' snapshot)
    (h : rewriteSnapshotTree env.toTreeEnv load .all (rechunkNode env) fuel snapshot s =
      some (snapshot', s')) :
    (Preserved load load' env.store.plain plain' snapshot snapshot' ↔ RootExpected load snapshot) ∧
      Remembers env s' := by
  obtain ⟨nodes, -, -, -, hload, -, -, hroot, hpaths, hs'⟩ :=
    rewriteSnapshotTree_returns htree (processing_rechunkNode env) hs h
  have hsub : ∀ node node', Rechunked env node node' → node'.tree = node.tree := by
    intro node node' hnode
    rw [hnode.eq]
  refine ⟨?_, hs'⟩
  constructor
  · rintro ⟨-, -, nodes₁, nodes', hload₁, hload', hexact⟩ nodes₂ hload₂
    have hle := (processing_rechunkNode env).length_le hs hsub htree hload₁
      (hkeeps.trees nodes₁ hload₁) h hload' hexact
    rw [hload₁] at hload₂
    cases hload₂
    rwa [allowedEntries_all] at hle
  · intro hexpected
    have hle := hexpected nodes hload
    rw [← allowedEntries_all snapshot.root nodes] at hle
    obtain ⟨nodes', hload', hexact⟩ := ((processing_rechunkNode env).exact_iff hs hsub htree hload
      (hkeeps.trees nodes hload) h).mpr hle
    refine ⟨hroot, hpaths, nodes, nodes', hload, hload', hexact.mono ?_⟩
    intro path node node' hpath hnode
    unfold Rechunked at hnode
    unfold SameData
    split at hnode
    · rename_i hfile
      obtain ⟨blobs, blobs', hblobs, rfl, hdata⟩ := hnode
      rw [if_pos hfile]
      refine ⟨blobs, blobs', hblobs, rfl, fun hne => ?_⟩
      rw [hdata hne]
      exact flatMap_chunkIds (hkeeps.chunks blobs ⟨nodes, path, node, hload, hpath, hfile, hblobs⟩)
    · rw [if_neg ‹_›]
      exact hnode

/-- **Rechunking preserves meaning** if and only if no root has more entries than expected. The
snapshots are rechunked one after the other with one memo; each new one has the paths of the old one,
with the metadata of their nodes and the data of their files. -/
theorem rechunk_preserves_iff {snapshots snapshots' : List SnapshotRecord} {saved : Nat}
    (htrees : ∀ snapshot ∈ snapshots, SnapshotTree load snapshot.tree)
    (hkeeps : ∀ snapshot ∈ snapshots, KeepsRechunked env load load' plain' snapshot)
    (h : rechunkSnapshots env load fuel snapshots ⟨∅, saved⟩ = some (snapshots', s')) :
    List.Forall₂ (Preserved load load' env.store.plain plain') snapshots snapshots' ↔
      ∀ snapshot ∈ snapshots, RootExpected load snapshot := by
  have hs := remembers_empty env saved
  generalize (⟨∅, saved⟩ : RechunkState) = s at h hs
  induction snapshots generalizing s snapshots' with
  | nil =>
    cases h
    exact iff_of_true .nil (List.forall_mem_nil _)
  | cons snapshot snapshots ih =>
    obtain ⟨⟨snapshot', s₁⟩, hrewrite, h⟩ := Option.bind_eq_some_iff.mp h
    obtain ⟨⟨rest, s₂⟩, hrest, heq⟩ := Option.map_eq_some_iff.mp h
    cases heq
    rw [List.forall_mem_cons] at htrees hkeeps ⊢
    obtain ⟨hpreserved, hs₁⟩ := rewrite_preserves_iff htrees.1 hs hkeeps.1 hrewrite
    rw [List.forall₂_cons]
    exact and_congr hpreserved (ih htrees.2 hkeeps.2 s₁ hrest hs₁)

end Snapshots

section Sample

/-- Two blobs. -/
def dataStore : BlobStore where
  plain id := if id = 0 then [1, 2] else if id = 1 then [3] else []
  rawLength id := some (if id = 0 then [1, 2] else if id = 1 then [3] else [] : Bytes).length
  loadBlob id := some (if id = 0 then [1, 2] else if id = 1 then [3] else [])
  rawLength_eq := fun _ _ h => (Option.some.inj h).symm
  loadBlob_eq := fun _ _ h => (Option.some.inj h).symm

/-- The file `x` with two blobs, and with one. -/
def dataTrees : List (List Node) :=
  [[], [{ name := "x", metadata := { size := 3 }, blobs := some [0, 1] }],
    [{ name := "x", metadata := { size := 3 }, blobs := some [3] }]]

def dataEnv : RechunkEnv :=
  { listEnv dataTrees with
    chunker := sampleChunker
    store := dataStore
    fails := fun _ => false }

def dataSnapshot (tree : ID) : SnapshotRecord where
  root := [.rootDir]
  paths := [[.rootDir, .normal [0x78]]]
  tree := tree
  processedItemsCount := 1
  processedBytes := 3

theorem stored_dataSnapshot : StoredSnapshot (loadList dataTrees) (dataSnapshot 1) where
  tree := .mk rfl (by decide +kernel) (by decide +kernel) (by decide +kernel)
    fun node hnode sub hsub => by
    rw [List.mem_singleton.mp hnode] at hsub
    cases hsub
  below := by
    intro src hsrc
    rw [List.mem_singleton.mp hsrc]
    exact ⟨⟨[[0x78]], rfl⟩, by decide +kernel⟩

theorem keeps_dataSnapshot : KeepsRechunked dataEnv (loadList dataTrees) (loadList dataTrees)
    (fun id => if id = 3 then [1, 2, 3] else []) (dataSnapshot 1) where
  trees nodes _ := readsBack_listEnv (by decide) _ _ _ nodes
  chunks := by
    rintro blobs ⟨nodes, path, node, hload, hpath, -, hblobs⟩
    cases hload
    rw [pathOf_cons] at hpath
    rcases hpath with ⟨-, rfl⟩ | ⟨id, sub, htree, -⟩ | hrest
    · cases hblobs
      intro chunk hchunk
      have hdata : ([0, 1] : List ID).flatMap dataStore.plain = [1, 2, 3] := by decide +kernel
      have hmem : chunk ∈ sampleChunker.chunks 0 [1, 2, 3] := hdata ▸ hchunk
      rw [sampleChunker_chunks] at hmem
      rw [List.mem_singleton.mp hmem]
      decide +kernel
    · cases htree
    · exact absurd hrest not_pathOf_nil

/-- Two snapshots of one file: the second one finds its blobs in the memo. -/
theorem rechunk_twice :
    List.Forall₂ (Preserved (loadList dataTrees) (loadList dataTrees) dataStore.plain
    (fun id => if id = 3 then [1, 2, 3] else [])) [dataSnapshot 1, dataSnapshot 1]
      [dataSnapshot 2, dataSnapshot 2] := by
  have hrun : (rechunkSnapshots dataEnv (loadList dataTrees) 2 [dataSnapshot 1, dataSnapshot 1]
      ⟨∅, 0⟩).map Prod.fst = some [dataSnapshot 2, dataSnapshot 2] := by
    decide +kernel
  obtain ⟨⟨snapshots', s'⟩, h, rfl⟩ := Option.map_eq_some_iff.mp hrun
  refine (rechunk_preserves_iff (fun snapshot hsnapshot => ?_) (fun snapshot hsnapshot => ?_) h).mpr
    fun snapshot hsnapshot => ?_
  · rw [List.eq_of_mem_replicate (n := 2) hsnapshot]
    exact stored_dataSnapshot.tree
  · rw [List.eq_of_mem_replicate (n := 2) hsnapshot]
    exact keeps_dataSnapshot
  · rw [List.eq_of_mem_replicate (n := 2) hsnapshot]
    apply stored_dataSnapshot.rootExpected
    intro nodes hload node hnode
    cases hload
    rw [List.mem_singleton.mp hnode]
    exact ⟨_, List.mem_singleton_self _, by decide +kernel⟩

/-- The files `b` and `c` with the same data, and what is left of them. -/
def nestedTrees : List (List Node) :=
  [[], [{ name := "b", metadata := { size := 3 }, blobs := some [0, 1] },
      { name := "c", metadata := { size := 3 }, blobs := some [0, 1] }],
    [{ name := "b", metadata := { size := 3 }, blobs := some [3] }]]

/-- A snapshot of `/a` and `/a/b`, whose root is `/a`. -/
def nestedSnapshot (tree : ID) (count bytes : Nat) : SnapshotRecord where
  root := [.rootDir, .normal [0x61]]
  paths := [[.rootDir, .normal [0x61]], [.rootDir, .normal [0x61], .normal [0x62]]]
  tree := tree
  processedItemsCount := count
  processedBytes := bytes

/-- Rechunking a snapshot of nested source paths returns, and `/a/c` is gone. -/
theorem rechunk_loses_entry :
    calculateLcp (nestedSnapshot 1 2 6).paths = (nestedSnapshot 1 2 6).root ∧
    (rechunkSnapshots { dataEnv with codec := .ofList nestedTrees } (loadList nestedTrees) 3
      [nestedSnapshot 1 2 6] ⟨∅, 0⟩).map Prod.fst = some [nestedSnapshot 2 2 6] ∧
    ∀ plain', ¬ List.Forall₂ (Preserved (loadList nestedTrees) (loadList nestedTrees) dataStore.plain
      plain') [nestedSnapshot 1 2 6] [nestedSnapshot 2 2 6] := by
  refine ⟨by decide +kernel, by decide +kernel, fun plain' h => ?_⟩
  rw [List.forall₂_cons] at h
  obtain ⟨⟨-, -, nodes, nodes', hload, hload', hexact⟩, -⟩ := h
  cases hload
  cases hload'
  have hmem : ({ name := "c", metadata := { size := 3 }, blobs := some [0, 1] } : Node) ∈
      [{ name := "b", metadata := { size := 3 }, blobs := some [0, 1] },
        { name := "c", metadata := { size := 3 }, blobs := some [0, 1] }] :=
    List.mem_cons_of_mem _ (List.mem_singleton_self _)
  obtain ⟨node', hnode', -⟩ := hexact.complete _ _ (.entry hmem) fun _ _ _ => rfl
  -- what is left has only the path of `b`
  rw [pathOf_cons] at hnode'
  rcases hnode' with ⟨hpath, -⟩ | ⟨id, sub, htree, -⟩ | hrest
  · exact absurd hpath (by decide +kernel)
  · cases htree
  · exact not_pathOf_nil hrest

end Sample

end Mapache
