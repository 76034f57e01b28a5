import Mapache.Mount.Fs

/-!
# Reading a mounted file

What the positions of `read` stand for is `ReadPos.result`: the bytes that were read and those that
are still wanted of what follows. A blob that is passed, entered or left does not change it
(`ReadPos.advance_result`), so a read returns the wanted part of the file (`readLoop_spec`). The
cache holds what the loader gives after any sequence of requests, hence `read_exact`.
-/

set_option autoImplicit false

namespace Mapache

open Lib

namespace MapacheFS

section Loop

variable {loadBlob : ID → Option Bytes} {plain : ID → Bytes} {p : ReadPos} {blobData rest : Bytes}

/-- What `read` returns when `rest` follows. -/
def ReadPos.result (p : ReadPos) (rest : Bytes) : Bytes :=
  p.buffer ++ (rest.drop (p.currentOffset - p.filePos)).take p.remainingSize

/-- The next blob does not start after the first byte that is still wanted. -/
structure ReadPos.Ok (p : ReadPos) : Prop where
  size : p.remainingSize < 2 ^ 32
  order : p.remainingSize = 0 ∨ p.filePos ≤ p.currentOffset

theorem ReadPos.result_done (h : p.remainingSize = 0) : p.result rest = p.buffer := by
  simp [result, h]

/-- A blob before the wanted bytes is passed. -/
theorem ReadPos.advance_skip (h : p.filePos + blobData.length ≤ p.currentOffset) :
    p.advance blobData = { p with filePos := p.filePos + blobData.length } := by
  simp [advance, h]

/-- A blob with wanted bytes gives what it has of them. -/
theorem ReadPos.advance_enter (hok : p.Ok) (h : p.currentOffset < p.filePos + blobData.length)
    (hremaining : p.remainingSize ≠ 0) :
    let start := p.currentOffset - p.filePos
    let count := min (blobData.length - start) p.remainingSize
    p.advance blobData =
      { filePos := p.filePos + blobData.length
        remainingSize := p.remainingSize - count
        currentOffset := p.currentOffset + count
        buffer := p.buffer ++ (blobData.drop start).take count } := by
  intro start count
  have horder : p.filePos ≤ p.currentOffset := hok.order.resolve_left hremaining
  have hstart : start = p.currentOffset - p.filePos := rfl
  have hcount : count = min (blobData.length - start) p.remainingSize := rfl
  have hpos : 0 < count := by omega
  have hwidth : count % 2 ^ 32 = count := by
    have := hok.size
    exact Nat.mod_eq_of_lt (by omega)
  have hnot : ¬ p.filePos + blobData.length ≤ p.currentOffset := by omega
  simp only [advance, if_neg hnot]
  rw [← hstart, ← hcount, if_pos hpos, hwidth]

theorem ReadPos.Ok.advance (hok : p.Ok) (hremaining : p.remainingSize ≠ 0) :
    (p.advance blobData).Ok := by
  have hsize := hok.size
  have horder : p.filePos ≤ p.currentOffset := hok.order.resolve_left hremaining
  by_cases h : p.filePos + blobData.length ≤ p.currentOffset
  · rw [advance_skip h]
    exact ⟨hsize, Or.inr h⟩
  · rw [advance_enter hok (by omega) hremaining]
    constructor
    · dsimp only
      omega
    · dsimp only
      omega

/-- **A blob does not change what is returned.** -/
theorem ReadPos.advance_result (hok : p.Ok) (hremaining : p.remainingSize ≠ 0) :
    (p.advance blobData).result rest = p.result (blobData ++ rest) := by
  have horder : p.filePos ≤ p.currentOffset := hok.order.resolve_left hremaining
  by_cases h : p.filePos + blobData.length ≤ p.currentOffset
  · have hdrop : (blobData ++ rest).drop (p.currentOffset - p.filePos) =
        rest.drop (p.currentOffset - (p.filePos + blobData.length)) := by
      rw [List.drop_append, List.drop_eq_nil_of_le (by omega), List.nil_append, Nat.sub_sub]
    rw [advance_skip h]
    simp only [result, hdrop]
  · rw [advance_enter hok (by omega) hremaining]
    simp only [result]
    have hinside : p.currentOffset - p.filePos ≤ blobData.length := by omega
    have hdrop : (blobData ++ rest).drop (p.currentOffset - p.filePos) =
        blobData.drop (p.currentOffset - p.filePos) ++ rest := by
      rw [List.drop_append, Nat.sub_eq_zero_of_le hinside, List.drop_zero]
    rw [hdrop, List.take_append, List.length_drop, List.append_assoc]
    by_cases hall : blobData.length - (p.currentOffset - p.filePos) ≤ p.remainingSize
    · -- The rest of the blob is wanted, and the next one starts where it ends.
      have hnext : p.currentOffset + (blobData.length - (p.currentOffset - p.filePos)) -
          (p.filePos + blobData.length) = 0 := by omega
      have hlength : (blobData.drop (p.currentOffset - p.filePos)).length =
          blobData.length - (p.currentOffset - p.filePos) := List.length_drop
      rw [min_eq_left hall, hnext, List.drop_zero, List.take_of_length_le hlength.le,
        List.take_of_length_le (hlength.le.trans hall)]
    · -- The blob has more than is wanted.
      have hmore : p.remainingSize ≤ blobData.length - (p.currentOffset - p.filePos) := by omega
      rw [min_eq_right hmore, Nat.sub_self, List.take_zero, Nat.sub_eq_zero_of_le hmore,
        List.take_zero]

/-- The loop returns the wanted part of the blobs, or a blob could not be loaded. -/
theorem readLoop_spec {ids : List ID} {cache cache' : BlobCache} {result : Option Bytes}
    (hcache : cache.Holds plain) (hok : p.Ok)
    (hsound : ∀ id data, loadBlob id = some data → data = plain id)
    (heq : readLoop loadBlob ids p cache = (result, cache')) :
    cache'.Holds plain ∧ ((∀ id ∈ ids, loadBlob id = some (plain id)) →
      result = some (p.result (ids.flatMap plain))) := by
  induction ids generalizing p cache with
  | nil =>
    cases heq
    refine ⟨hcache, fun _ => ?_⟩
    simp [ReadPos.result]
  | cons id ids ih =>
    rw [readLoop] at heq
    split at heq
    · rename_i hdone
      cases heq
      exact ⟨hcache, fun _ => by rw [ReadPos.result_done hdone]⟩
    · rename_i hremaining
      split at heq
      · rename_i cache₁ hload
        cases heq
        obtain ⟨hcache₁, -, hall⟩ := BlobCache.load_spec hcache (hsound id) hload
        refine ⟨hcache₁, fun hloads => ?_⟩
        have := hall (hloads id List.mem_cons_self)
        cases this
      · rename_i blobData cache₁ hload
        obtain ⟨hcache₁, hdata, -⟩ := BlobCache.load_spec hcache (hsound id) hload
        have hblob : blobData = plain id := hdata blobData rfl
        obtain ⟨hcache', hresult⟩ := ih hcache₁ (hok.advance hremaining) heq
        refine ⟨hcache', fun hloads => ?_⟩
        rw [hresult fun id' hid' => hloads id' (List.mem_cons_of_mem _ hid'),
          ReadPos.advance_result hok hremaining, hblob, List.flatMap_cons]

end Loop

/-! ## The cache of a mount -/

section Requests

variable {env : MountEnv} {plain : ID → Bytes} {loadBlob : ID → Option Bytes}

/-- What the loader gives is the content of the blob. -/
def SoundLoader (plain : ID → Bytes) (loadBlob : ID → Option Bytes) : Prop :=
  ∀ id data, loadBlob id = some data → data = plain id

/-- Only what was looked into differs. -/
def SameFiles (fs fs' : MapacheFS) : Prop :=
  ∃ stash treeCache, fs' = { fs with stash, treeCache }

theorem ensureLoaded_sameFiles (env : MountEnv) (loadBlob : ID → Option Bytes) (fs : MapacheFS)
    (ino : INodeNo) :
    fs.SameFiles (fs.ensureLoaded env loadBlob ino).2 := by
  unfold ensureLoaded
  split
  · exact ⟨_, _, rfl⟩
  · split
    · split <;> exact ⟨_, _, rfl⟩
    · exact ⟨_, _, rfl⟩

theorem init_sameFiles (fs : MapacheFS) (snapshots : List MountedSnapshot) :
    fs.SameFiles (fs.init env snapshots) := by
  unfold init
  split
  · exact ⟨_, _, rfl⟩
  · split
    · dsimp only
      split <;> exact ⟨_, _, rfl⟩
    · exact ⟨_, _, rfl⟩

theorem lookup_sameFiles (fs : MapacheFS) (parent : INodeNo) (name : String) :
    fs.SameFiles (fs.lookup env loadBlob parent name).2 := by
  have hload := ensureLoaded_sameFiles env loadBlob fs parent
  unfold lookup
  split
  · exact ⟨_, _, rfl⟩
  · split
    · rename_i heq
      rw [heq] at hload
      exact hload
    · rename_i heq
      rw [heq] at hload
      split <;> exact hload

theorem readdir_sameFiles (fs : MapacheFS) (ino : INodeNo) (offset page : Nat) :
    fs.SameFiles (fs.readdir env loadBlob ino offset page).2 := by
  have hload := ensureLoaded_sameFiles env loadBlob fs ino
  unfold readdir
  split <;> rename_i heq <;> rw [heq] at hload <;> exact hload

/-- Contents may be read, and what is cached of them is right. -/
structure Readable (plain : ID → Bytes) (fs : MapacheFS) : Prop where
  enabled : fs.metadataOnly = false
  holds : fs.blobCache.Holds plain

theorem Readable.of_sameFiles {fs fs' : MapacheFS} (h : fs.Readable plain) (hsame : fs.SameFiles fs') :
    fs'.Readable plain := by
  obtain ⟨stash, treeCache, rfl⟩ := hsame
  exact ⟨h.enabled, h.holds⟩

theorem Readable.read {fs : MapacheFS} (h : fs.Readable plain) (hsound : SoundLoader plain loadBlob)
    (ino : INodeNo) (offset : Nat) {size : Nat} (hsize : size < 2 ^ 32) :
    (fs.read loadBlob ino offset size).2.Readable plain := by
  unfold MapacheFS.read
  split
  · exact h
  · split
    · have hok : ReadPos.Ok ⟨0, size, offset, []⟩ := ⟨hsize, Or.inr (Nat.zero_le _)⟩
      split <;> rename_i heq <;> exact ⟨h.enabled, (readLoop_spec h.holds hok hsound heq).1⟩
    · exact h

/-- The size of a `read` is a `u32`. -/
def Request.Sized : Request → Prop
  | .read _ _ size => size < 2 ^ 32
  | _ => True

/-- A request leaves only contents of blobs in the cache. -/
theorem Readable.handle {fs : MapacheFS} {request : Request} (h : fs.Readable plain)
    (hsound : SoundLoader plain loadBlob) (hsized : request.Sized) :
    (fs.handle env loadBlob request).2.Readable plain := by
  cases request with
  | init snapshots => exact h.of_sameFiles (init_sameFiles fs snapshots)
  | lookup parent name => exact h.of_sameFiles (lookup_sameFiles fs parent name)
  | getattr ino => exact h
  | readdir ino offset page => exact h.of_sameFiles (readdir_sameFiles fs ino offset page)
  | «open» ino => exact h
  | read ino offset size => exact h.read hsound ino offset hsized
  | readlink ino => exact h

theorem Readable.run (env : MountEnv) {fs : MapacheFS}
    {requests : List (Request × (ID → Option Bytes))}
    (h : fs.Readable plain) (hsound : ∀ r ∈ requests, SoundLoader plain r.2)
    (hsized : ∀ r ∈ requests, r.1.Sized) : (fs.run env requests).Readable plain := by
  induction requests generalizing fs with
  | nil => exact h
  | cons r requests ih =>
    rw [List.forall_mem_cons] at hsound hsized
    exact ih (h.handle hsound.1 hsized.1) hsound.2 hsized.2

/-- **A read returns the right bytes.** After any requests, with any cache size and any blobs that
could or could not be loaded in the meantime, a read of a file whose blobs can be loaded returns the
bytes of its content from `offset` up to `offset + size` or to its end, and nothing from its end on.
-/
theorem read_exact {repo : Bool} {archiveRootTree : Option ID} {dataCacheSize : Nat}
    {createdTime : Int}
    {requests : List (Request × (ID → Option Bytes))} {ino : INodeNo} {blobs : List ID}
    {offset size : Nat} (hsound : ∀ r ∈ requests, SoundLoader plain r.2)
    (hsized : ∀ r ∈ requests, r.1.Sized)
    (hfile : (((mount repo archiveRootTree false dataCacheSize createdTime).run env
    requests).stash.getNode
      ino).map FsNode.kind = some (.file blobs))
    (hloader : SoundLoader plain loadBlob) (hblobs : ∀ id ∈ blobs, loadBlob id = some (plain id))
    (hsize : size < 2 ^ 32) :
    let content := blobs.flatMap plain
    let reply := (((mount repo archiveRootTree false dataCacheSize createdTime).run env
      requests).handle
      env loadBlob (.read ino offset size)).1
    reply = .data ((content.take (min (offset + size) content.length)).drop offset) ∧
      (content.length ≤ offset → reply = .data []) := by
  intro content reply
  have hstart : (mount repo archiveRootTree false dataCacheSize createdTime).Readable plain :=
    ⟨rfl, BlobCache.holds_new dataCacheSize⟩
  have hreadable := hstart.run env hsound hsized
  have hok : ReadPos.Ok ⟨0, size, offset, []⟩ := ⟨hsize, Or.inr (Nat.zero_le _)⟩
  have hreply : reply = .data ((content.drop offset).take size) := by
    have heq : ((mount repo archiveRootTree false dataCacheSize createdTime).run env requests).read
        loadBlob ino offset size = (reply, _) := rfl
    rw [MapacheFS.read, hreadable.enabled, if_neg Bool.false_ne_true, hfile] at heq
    have hloop := (readLoop_spec hreadable.holds hok hloader rfl).2 hblobs
    dsimp only at heq
    split at heq
    · rename_i data cache hdata
      rw [hdata] at hloop
      cases Option.some.inj hloop
      exact (congrArg Prod.fst heq).symm
    · rename_i cache hnone
      rw [hnone] at hloop
      cases hloop
  have hslice : (content.take (min (offset + size) content.length)).drop offset =
      (content.drop offset).take size := by
    rw [← List.take_take, List.take_length, List.drop_take, Nat.add_sub_cancel_left]
  refine ⟨by rw [hreply, hslice], fun hpast => ?_⟩
  rw [hreply, List.drop_eq_nil_of_le hpast, List.take_nil]

end Requests

/-- A tree with one file, its two blobs, and what they are stored as. -/
def sampleFile : Node := { name := "f", blobs := some [5, 6] }

def sampleContent (id : ID) : Bytes := if id = 1 then [0] else if id = 5 then [10, 20] else [30, 40]

def sampleMountEnv : MountEnv where
  codec := .single [sampleFile] [0]
  symlinkTarget := fun _ => ""
  prettyPrintTimestamp := fun _ => ""

/-- The requests before the read. -/
def sampleRequests : List (Request × (ID → Option Bytes)) :=
  [(.init [], some ∘ sampleContent), (.lookup 1 "f", some ∘ sampleContent)]

theorem soundLoader_some (plain : ID → Bytes) : SoundLoader plain (some ∘ plain) :=
  fun _ _ h => (Option.some.inj h).symm

/-- A file of a bundle, read across the border of its blobs with a cache that holds neither. -/
theorem read_exact_sample :
    (((mount false (some 1) false 1 0).run sampleMountEnv sampleRequests).handle sampleMountEnv
      (some ∘ sampleContent) (.read 2 1 2)).1 = .data [20, 30] := by
  have hfile : (((mount false (some 1) false 1 0).run sampleMountEnv sampleRequests).stash.getNode
      2).map FsNode.kind = some (.file [5, 6]) := rfl
  have hsound : ∀ r ∈ sampleRequests, SoundLoader sampleContent r.2 := by
    simp [sampleRequests, soundLoader_some]
  have hsized : ∀ r ∈ sampleRequests, r.1.Sized := by
    simp [sampleRequests, Request.Sized]
  exact (read_exact hsound hsized hfile (soundLoader_some sampleContent) (fun _ _ => rfl)
    (by decide)).1

end MapacheFS

end Mapache
