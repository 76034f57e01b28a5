import Mapache.Archiver.Snapshot
import Mapache.Chunker

/-!
# What an incremental backup stores

`process_item_sync` of `archiver/processor.rs` with the comparison of `NodeDiffStream`: a node that
looks like its node in the parent snapshot (`Node::is_modified_hint`) is stored with the metadata of
that node and, when it is a file, with its blobs. A file that cannot be read is stored without
blobs.

A chain of backups is a list of runs, the last one first, each on top of the one before it. A file
that a run finds unchanged has its blobs exactly when the run that last processed it could read it
(`unchanged_blobs_iff`), and the stored metadata is that of the file exactly when the parent has
none for it, looks different or has the same metadata (`stored_metadata_iff`).
-/

set_option autoImplicit false

namespace Mapache

open Lib

/-! ## Processing an item -/

inductive NodeDiff where
  | new
  | deleted
  | changed
  | unchanged
  deriving DecidableEq

/-- The comparison of `NodeDiffStream` for a path of the file system. The node of the parent may be
absent, or there but unreadable. -/
def nodeDiff (prev : Option (Option StreamNode)) (next : StreamNode) : NodeDiff :=
  match prev with
  | none => .new
  | some none => .changed
  | some (some p) => if p.node.isModifiedHint next.node then .changed else .unchanged

/-- `process_item_sync`: `none` for an inconsistent item, and otherwise the node to store. `stored`
is what the reading and saving of a file gives. -/
def processItemSync (prev next : Option StreamNode) (diff : NodeDiff) (stored : Option (List ID)) :
    Option (Option StreamNode) :=
  match diff with
  | .deleted => prev.map fun _ => none
  | .unchanged => next.bind fun n => prev.map fun p => some (n.unchanged p.node)
  | .new | .changed =>
    next.map fun n =>
      some (if n.node.isFile then
        match stored with
        | some ids => { n with node := { n.node with blobs := some ids } }
        -- the error is only reported
        | none => n
      else n)

/-- **What becomes of a node of the file system**: an unchanged one is stored with the content of
its node in the parent, any other one with what was saved for it. -/
theorem processItemSync_cases (prev : Option (Option StreamNode)) (item : StreamNode)
    (stored : Option (List ID)) :
    (nodeDiff prev item = .unchanged ∧ ∃ p, prev = some (some p) ∧
      p.node.isModifiedHint item.node = false ∧
      processItemSync prev.join (some item) (nodeDiff prev item) stored =
        some (some (item.unchanged p.node))) ∨
    (nodeDiff prev item ≠ .unchanged ∧
      processItemSync prev.join (some item) (nodeDiff prev item) stored =
        some (some (if item.node.isFile then
          match stored with
          | some ids => { item with node := { item.node with blobs := some ids } }
          | none => item
        else item))) := by
  match prev with
  | none => exact Or.inr ⟨fun h => (by cases h), rfl⟩
  | some none => exact Or.inr ⟨fun h => (by cases h), rfl⟩
  | some (some p) =>
    unfold nodeDiff
    dsimp only
    split
    · exact Or.inr ⟨fun h => (by cases h), rfl⟩
    · rename_i hhint
      exact Or.inl ⟨rfl, p, rfl, Bool.eq_false_iff.mpr hhint, rfl⟩

/-- `MIN_CHUNK_SIZE`. -/
def minChunkSize : Nat := 512 * 1024

/-- The chunks of a file: `store_small_file` saves as many bytes as the metadata says as one blob,
and `chunk_and_store_file` cuts what it reads. -/
def fileChunks (c : Chunker) (size : Nat) (bytes : Bytes) : Option (List Bytes) :=
  if size ≤ minChunkSize then
    if size = 0 then some []
    else if bytes.length < size then none
    else some [bytes.take size]
  else some ((c.chunks 0 bytes).map Chunk.data)

/-- The chunks of a file of the size that its metadata says are its bytes. -/
theorem exists_fileChunks (c : Chunker) (bytes : Bytes) :
    ∃ chunks, fileChunks c bytes.length bytes = some chunks ∧ chunks.flatten = bytes := by
  unfold fileChunks
  split
  · split
    · rename_i hzero
      exact ⟨[], rfl, by rw [List.length_eq_zero_iff.mp hzero]; rfl⟩
    · rw [if_neg (lt_irrefl _), List.take_length]
      exact ⟨_, rfl, by simp⟩
  · refine ⟨_, rfl, ?_⟩
    rw [← List.flatMap_def]
    exact c.flatMap_chunks 0 bytes

/-! ## Runs and chains -/

/-- A path of the file system with its node and, for a file, its bytes. -/
structure FsEntry where
  item : StreamNode
  bytes : Bytes
  bare : item.node.Bare
  size_eq : item.node.isFile = true → item.node.metadata.size = bytes.length

/-- What the comparison sees of the parent's node at a path. -/
inductive Seen where
  | node
  /-- The streams do not meet there. -/
  | missed
  /-- The node could not be loaded. -/
  | failed

/-- The parent's node as the comparison sees it. -/
def Seen.prev (parent : Option StreamNode) : Seen → Option (Option StreamNode)
  | .node => parent.map some
  | .missed => none
  | .failed => parent.map fun _ => none

theorem Seen.parent_of_prev {seen : Seen} {parent : Option StreamNode} {p : StreamNode}
    (h : seen.prev parent = some (some p)) : parent = some p := by
  cases seen with
  | node =>
    obtain ⟨p', hp', heq⟩ := Option.map_eq_some_iff.mp h
    cases heq
    exact hp'
  | missed => cases h
  | failed =>
    obtain ⟨p', -, heq⟩ := Option.map_eq_some_iff.mp h
    cases heq

/-- The file system at one run, and what goes wrong in the run. -/
structure SourceRun where
  fs : Path → Option FsEntry
  seen : Path → Seen
  /-- The file at the path can be read to its end and saved. -/
  readable : Path → Bool

/-- The parameters of a chain: the chunker and the content hash. -/
structure ChainEnv where
  chunker : Chunker
  fromContent : Bytes → ID

namespace SourceRun

variable (env : ChainEnv) (parent : Path → Option StreamNode) (r : SourceRun) (path : Path)

/-- What reading and saving the file gives. -/
def saveFile (e : FsEntry) : Option (List ID) :=
  if r.readable path then
    (fileChunks env.chunker e.item.node.metadata.size e.bytes).map (List.map env.fromContent)
  else none

/-- The diff of the path. -/
def diff (e : FsEntry) : NodeDiff := nodeDiff ((r.seen path).prev (parent path)) e.item

/-- The node that the run stores for a path. -/
def store : Option StreamNode :=
  (r.fs path).bind fun e =>
    (processItemSync ((r.seen path).prev (parent path)).join (some e.item) (r.diff parent path e)
      (r.saveFile env path e)).join

end SourceRun

/-- The nodes of the last snapshot of a chain. The last run comes first. -/
def snapshotOf (env : ChainEnv) : List SourceRun → Path → Option StreamNode
  | [], _ => none
  | r :: rs, path => r.store env (snapshotOf env rs) path

section Store

variable {env : ChainEnv} {parent : Path → Option StreamNode} {r : SourceRun} {path : Path}
  {e : FsEntry}

/-- An unchanged node has a node in the parent that looks like it. -/
theorem SourceRun.diff_eq_unchanged (h : r.diff parent path e = .unchanged) :
    ∃ p, (r.seen path).prev (parent path) = some (some p) ∧ parent path = some p ∧
      p.node.isModifiedHint e.item.node = false := by
  rcases processItemSync_cases ((r.seen path).prev (parent path)) e.item none with
    ⟨-, p, hp, hhint, -⟩ | ⟨hdiff, -⟩
  · exact ⟨p, hp, Seen.parent_of_prev hp, hhint⟩
  · exact absurd h hdiff

/-- **The stored node**: that of the parent where the diff says unchanged, and otherwise that of the
file system with the saved blobs. -/
theorem SourceRun.store_eq (env : ChainEnv) (parent : Path → Option StreamNode)
    (he : r.fs path = some e) :
    (r.diff parent path e = .unchanged ∧ ∃ p, parent path = some p ∧
      (r.seen path).prev (parent path) = some (some p) ∧ p.node.isModifiedHint e.item.node = false ∧
      r.store env parent path = some (e.item.unchanged p.node)) ∨
    (r.diff parent path e ≠ .unchanged ∧ r.store env parent path =
      some (if e.item.node.isFile then
        match r.saveFile env path e with
        | some ids => { e.item with node := { e.item.node with blobs := some ids } }
        | none => e.item
      else e.item)) := by
  rw [SourceRun.store, he, Option.bind_some, SourceRun.diff]
  rcases processItemSync_cases ((r.seen path).prev (parent path)) e.item (r.saveFile env path e) with
    ⟨hdiff, p, hp, hhint, heq⟩ | ⟨hdiff, heq⟩
  · exact Or.inl ⟨hdiff, p, Seen.parent_of_prev hp, hp, hhint, by rw [heq, Option.join_some]⟩
  · exact Or.inr ⟨hdiff, by rw [heq, Option.join_some]⟩

end Store

/-! ## The metadata of a stored node -/

/-- A file of one byte with the given mode. -/
def sampleFile (mode : Nat) : FsEntry where
  item := ⟨{ name := "a", metadata := { size := 1, mode := some mode } }, 0⟩
  bytes := [7]
  bare := ⟨rfl, rfl⟩
  size_eq := fun _ => rfl

/-- A run over this file. -/
def sampleSource (mode : Nat) (readable : Bool) : SourceRun where
  fs := fun _ => some (sampleFile mode)
  seen := fun _ => .node
  readable := fun _ => readable

def sampleChain : ChainEnv := ⟨sampleChunker, fun _ => 0⟩

/-- A run stores the metadata that the node has now, as a run without a parent does. -/
def StoresMetadata (env : ChainEnv) (parent : Path → Option StreamNode) (r : SourceRun) (path : Path)
    (e : FsEntry) : Prop :=
  ∃ out out₀, r.store env parent path = some out ∧ r.store env (fun _ => none) path = some out₀ ∧
    out.node.metadata = e.item.node.metadata ∧ out.node.metadata = out₀.node.metadata

/-- **When the stored metadata is that of the file**: the parent shows no node there, or its node
looks different, or it has the same metadata. A node that only looks the same is stored with the
metadata of the parent, whatever became of its mode, its owner, its group, its access time or its
extended attributes. -/
theorem stored_metadata_iff (env : ChainEnv) {parent : Path → Option StreamNode} {r : SourceRun}
    {path : Path} {e : FsEntry} (he : r.fs path = some e) :
    StoresMetadata env parent r path e ↔ ∀ p, (r.seen path).prev (parent path) = some (some p) →
      p.node.isModifiedHint e.item.node = true ∨ p.node.metadata = e.item.node.metadata := by
  -- what is read and saved does not change the metadata
  have hfresh : ∀ {parent : Path → Option StreamNode}, r.diff parent path e ≠ .unchanged →
      ∃ out, r.store env parent path = some out ∧ out.node.metadata = e.item.node.metadata := by
    intro parent hdiff
    rcases r.store_eq env parent he with ⟨hcontra, -⟩ | ⟨-, hstore⟩
    · exact absurd hcontra hdiff
    · refine ⟨_, hstore, ?_⟩
      split
      · split <;> rfl
      · rfl
  -- without a parent nothing is unchanged
  obtain ⟨out₀, hout₀, hmeta₀⟩ := hfresh fun hdiff : r.diff (fun _ => none) path e = .unchanged => by
    obtain ⟨p, -, hp, -⟩ := SourceRun.diff_eq_unchanged hdiff
    cases hp
  constructor
  · rintro ⟨out, -, hout, -, hmeta, -⟩ p hp
    rcases r.store_eq env parent he with ⟨-, p', -, hp', -, hstore⟩ | ⟨hdiff, -⟩
    · rw [hp] at hp'
      cases hp'
      rw [hstore] at hout
      cases hout
      exact Or.inr hmeta
    · left
      by_contra hhint
      rw [SourceRun.diff, hp, nodeDiff, if_neg hhint] at hdiff
      exact hdiff rfl
  · intro hcond
    rcases r.store_eq env parent he with ⟨-, p, -, hp, hhint, hstore⟩ | ⟨hdiff, -⟩
    · rcases hcond p hp with hmod | hmeta
      · rw [hhint] at hmod
        cases hmod
      · exact ⟨_, out₀, hstore, hout₀, hmeta, hmeta.trans hmeta₀.symm⟩
    · obtain ⟨out, hout, hmeta⟩ := hfresh hdiff
      exact ⟨out, out₀, hout, hout₀, hmeta, hmeta.trans hmeta₀.symm⟩

/-- A run after a change of the size. -/
theorem sample_stored_metadata :
    StoresMetadata sampleChain (fun _ => some ⟨{ name := "a", metadata := { size := 2 } }, 0⟩)
      (sampleSource 0o600 true) [] (sampleFile 0o600) := by
  refine (stored_metadata_iff sampleChain rfl).mpr fun p hp => Or.inl ?_
  cases hp
  rfl

/-- After `chmod 600` the second run stores the mode that the file had in the first one. -/
theorem chmod_is_not_stored :
    ¬ StoresMetadata sampleChain (snapshotOf sampleChain [sampleSource 0o644 true])
      (sampleSource 0o600 true) [] (sampleFile 0o600) := by
  rintro ⟨out, -, hout, -, hmeta, -⟩
  cases hout
  cases hmeta

/-! ## The blobs of an unchanged file -/

/-- Between a run and the next one, a file whose bytes have changed looks modified. -/
def HintsTell : List SourceRun → Prop
  | r :: r' :: rs =>
    (∀ path e e', r.fs path = some e → r'.fs path = some e' → e.item.node.isFile = true →
      e'.item.node.isFile = true → e'.item.node.isModifiedHint e.item.node = false →
      e.bytes = e'.bytes) ∧ HintsTell (r' :: rs)
  | _ => True

/-- Under the ID of a chunk the repository has the chunk. -/
def ChunksKept (env : ChainEnv) (plain : ID → Bytes) (r : SourceRun) : Prop :=
  ∀ path e chunks, r.fs path = some e →
    fileChunks env.chunker e.item.node.metadata.size e.bytes = some chunks →
    ∀ chunk ∈ chunks, plain (env.fromContent chunk) = chunk

/-- The run that last processed the file as new or changed could read it, and it was a file in every
run since. -/
def LastRead (env : ChainEnv) : List SourceRun → Path → Prop
  | [], _ => False
  | r :: rs, path => ∃ e, r.fs path = some e ∧ e.item.node.isFile = true ∧
      if r.diff (snapshotOf env rs) path e = .unchanged then LastRead env rs path
      else r.readable path = true

/-- The blobs of the node are the bytes of the file. -/
def HasContent (plain : ID → Bytes) (node : Node) (bytes : Bytes) : Prop :=
  ∃ ids, node.blobs = some ids ∧ ids.flatMap plain = bytes

section Chain

variable {env : ChainEnv} {plain : ID → Bytes}

theorem isModifiedHint_congr {a b c : Node} (hab : a.isModifiedHint b = false)
    (hac : a.isModifiedHint c = false) : b.isModifiedHint c = false := by
  simp only [Node.isModifiedHint, decide_eq_false_iff_not, not_or, not_not] at hab hac ⊢
  obtain ⟨h₁, h₂, h₃, h₄⟩ := hab
  obtain ⟨h₁', h₂', h₃', h₄'⟩ := hac
  exact ⟨h₁.symm.trans h₁', h₂.symm.trans h₂', h₃.symm.trans h₃', h₄.symm.trans h₄'⟩

theorem isModifiedHint_self {a b : Node} (h : a.metadata = b.metadata) :
    a.isModifiedHint b = false := by
  simp [Node.isModifiedHint, h]

/-- Saving a file that can be read gives its bytes. -/
theorem SourceRun.saveFile_spec {r : SourceRun} {path : Path} {e : FsEntry}
    (hkept : ChunksKept env plain r) (he : r.fs path = some e) (hfile : e.item.node.isFile = true) :
    (r.readable path = true → ∃ ids, r.saveFile env path e = some ids ∧ ids.flatMap plain = e.bytes) ∧
      (r.readable path ≠ true → r.saveFile env path e = none) := by
  constructor
  · intro hread
    obtain ⟨chunks, hchunks, hbytes⟩ := exists_fileChunks env.chunker e.bytes
    rw [← e.size_eq hfile] at hchunks
    refine ⟨chunks.map env.fromContent, ?_, ?_⟩
    · rw [SourceRun.saveFile, if_pos hread, hchunks, Option.map_some]
    · -- each chunk is what its ID stands for
      have hplain := hkept path e chunks he hchunks
      rw [List.flatMap_map, ← hbytes]
      have hmap : chunks.map (fun chunk => plain (env.fromContent chunk)) = chunks :=
        (List.map_congr_left hplain).trans (List.map_id chunks)
      rw [List.flatMap_def, hmap]
  · intro hread
    rw [SourceRun.saveFile, if_neg hread]

/-- **What a chain stores for a path**: a node that looks like that of the file system, with the
bytes of the file when it was last read, and otherwise without blobs. -/
theorem snapshotOf_spec {rs : List SourceRun} {path : Path} {out : StreamNode} (htell : HintsTell rs)
    (hkept : ∀ r ∈ rs, ChunksKept env plain r) (h : snapshotOf env rs path = some out) :
    ∃ r rs' e, rs = r :: rs' ∧ r.fs path = some e ∧ out.node.isModifiedHint e.item.node = false ∧
      (LastRead env rs path → HasContent plain out.node e.bytes) ∧
      (¬ LastRead env rs path → out.node.blobs = none) := by
  induction rs generalizing out with
  | nil => cases h
  | cons r rs ih =>
    have hkept' := hkept r List.mem_cons_self
    cases he : r.fs path with
    | none =>
      rw [snapshotOf, SourceRun.store, he] at h
      cases h
    | some e =>
      refine ⟨r, rs, e, rfl, he, ?_⟩
      rw [snapshotOf] at h
      rcases r.store_eq env (snapshotOf env rs) he with
        ⟨hdiff, p, hp, -, hhint, hstore⟩ | ⟨hdiff, hstore⟩
      · -- the node is taken over, with what the chain before has for it
        rw [hstore] at h
        cases h
        have htell' : HintsTell rs := by
          cases rs with
          | nil => trivial
          | cons r' rs' => exact htell.2
        obtain ⟨r', rs', e', rfl, he', hhint', hread, hlost⟩ :=
          ih htell' (fun r' hr' => hkept r' (List.mem_cons_of_mem _ hr')) hp
        refine ⟨?_, ?_, ?_⟩
        · exact isModifiedHint_congr (isModifiedHint_self rfl) hhint
        · rintro ⟨e₁, he₁, hfile, hlast⟩
          rw [he] at he₁
          cases he₁
          rw [if_pos hdiff] at hlast
          obtain ⟨ids, hids, hbytes⟩ := hread hlast
          have hfile' : e'.item.node.isFile = true := by
            obtain ⟨e₂, he₂, hfile₂, -⟩ := hlast
            rw [he'] at he₂
            cases he₂
            exact hfile₂
          refine ⟨ids, ?_, ?_⟩
          · simp only [StreamNode.unchanged, hfile, if_true]
            exact hids
          · rw [hbytes]
            exact (htell.1 path e e' he he' hfile hfile'
              (isModifiedHint_congr hhint' hhint)).symm
        · intro hlast
          by_cases hfile : e.item.node.isFile = true
          · simp only [StreamNode.unchanged, hfile, if_true]
            refine hlost fun hprev => hlast ⟨e, he, hfile, ?_⟩
            rw [if_pos hdiff]
            exact hprev
          · simp only [StreamNode.unchanged, hfile]
            exact e.bare.1
      · -- the file is read
        rw [hstore] at h
        cases h
        refine ⟨?_, ?_, ?_⟩
        · split
          · split <;> exact isModifiedHint_self rfl
          · exact isModifiedHint_self rfl
        · rintro ⟨e₁, he₁, hfile, hlast⟩
          rw [he] at he₁
          cases he₁
          rw [if_neg hdiff] at hlast
          obtain ⟨ids, hids, hbytes⟩ := (SourceRun.saveFile_spec hkept' he hfile).1 hlast
          refine ⟨ids, ?_, hbytes⟩
          rw [if_pos hfile, hids]
        · intro hlast
          by_cases hfile : e.item.node.isFile = true
          · have hunread : r.readable path ≠ true := by
              intro hread
              refine hlast ⟨e, he, hfile, ?_⟩
              rw [if_neg hdiff]
              exact hread
            rw [if_pos hfile, (SourceRun.saveFile_spec hkept' he hfile).2 hunread]
            exact e.bare.1
          · rw [if_neg hfile]
            exact e.bare.1

end Chain

/-- **When an unchanged file has its bytes.** In every chain of backups, a file that the last run
finds unchanged is stored with its bytes if and only if the run that last processed it as new or
changed could read it, and it was a file in every run since. A file that could not be read is stored
without blobs, and every later run that finds it unchanged takes this over. -/
theorem unchanged_blobs_iff {env : ChainEnv} {plain : ID → Bytes} {r : SourceRun} {rs : List SourceRun}
    {path : Path} {e : FsEntry} {out : StreamNode} (htell : HintsTell (r :: rs))
    (hkept : ∀ r' ∈ r :: rs, ChunksKept env plain r') (he : r.fs path = some e)
    (hfile : e.item.node.isFile = true) (hdiff : r.diff (snapshotOf env rs) path e = .unchanged)
    (hout : snapshotOf env (r :: rs) path = some out) :
    HasContent plain out.node e.bytes ↔ LastRead env rs path := by
  obtain ⟨r', rs', e', heq, he', -, hread, hlost⟩ := snapshotOf_spec htell hkept hout
  cases heq
  rw [he] at he'
  cases he'
  have hlast : LastRead env (r :: rs) path ↔ LastRead env rs path := by
    constructor
    · rintro ⟨e₁, he₁, -, hlast⟩
      rw [he] at he₁
      cases he₁
      rwa [if_pos hdiff] at hlast
    · intro hlast
      refine ⟨e, he, hfile, ?_⟩
      rwa [if_pos hdiff]
  rw [← hlast]
  constructor
  · rintro ⟨ids, hids, -⟩
    by_contra hno
    rw [hlost hno] at hids
    cases hids
  · exact hread

/-- The premises that two runs over the sample file meet. -/
theorem sampleSource_chain (readable : Bool) :
    HintsTell [sampleSource 0o644 true, sampleSource 0o644 readable] ∧
      ∀ r ∈ [sampleSource 0o644 true, sampleSource 0o644 readable],
        ChunksKept sampleChain (fun _ => [7]) r := by
  have hkept : ∀ readable, ChunksKept sampleChain (fun _ => [7]) (sampleSource 0o644 readable) := by
    intro readable path e chunks he hchunks chunk hchunk
    cases he
    cases hchunks
    rw [List.mem_singleton.mp hchunk]
    rfl
  refine ⟨⟨?_, trivial⟩, fun r hr => ?_⟩
  · intro path e e' he he' _ _ _
    cases he
    cases he'
    rfl
  · simp only [List.mem_cons, List.not_mem_nil, or_false] at hr
    rcases hr with rfl | rfl
    · exact hkept true
    · exact hkept readable

/-- The second run over a file that the first one could read. -/
theorem sample_unchanged_blobs :
    HasContent (fun _ => [7])
      { name := "a", metadata := { size := 1, mode := some 0o644 }, blobs := some [0] }
      (sampleFile 0o644).bytes := by
  have hiff := @unchanged_blobs_iff sampleChain (fun _ => [7]) (sampleSource 0o644 true)
    [sampleSource 0o644 true] [] (sampleFile 0o644) ⟨_, 0⟩ (sampleSource_chain true).1
    (sampleSource_chain true).2 rfl rfl rfl rfl
  exact hiff.mpr ⟨_, rfl, rfl, rfl⟩

/-- The first run cannot read the file, and the second one finds it unchanged: it stores the node
without blobs, and reports no error. -/
theorem unread_file_stays_empty :
    (HintsTell [sampleSource 0o644 true, sampleSource 0o644 false] ∧
      ∀ r ∈ [sampleSource 0o644 true, sampleSource 0o644 false],
        ChunksKept sampleChain (fun _ => [7]) r) ∧
    (sampleSource 0o644 true).diff (snapshotOf sampleChain [sampleSource 0o644 false]) []
      (sampleFile 0o644) = .unchanged ∧
    ∃ out, snapshotOf sampleChain [sampleSource 0o644 true, sampleSource 0o644 false] [] = some out ∧
      out.node.isFile = true ∧ ¬ HasContent (fun _ => [7]) out.node (sampleFile 0o644).bytes := by
  refine ⟨sampleSource_chain false, rfl, _, rfl, rfl, ?_⟩
  rintro ⟨ids, hids, -⟩
  cases hids

end Mapache
